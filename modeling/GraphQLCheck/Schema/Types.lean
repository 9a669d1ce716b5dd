import GraphQLCheck.OrderedMap
import GraphQLCheck.Language.TypeSystem
import GraphQLCheck.Schema.AnnotatedType

/-!
# The types of a schema

What a schema defines: types of six kinds with their members, and directives. Members are kept in
maps under their names, in the order in which they were written.
-/

namespace GraphQLCheck

/-- A parameter of a field or a directive, or a field of an input object. -/
structure InputDef where
  name : String
  location : SourceLocation
  description : Option String
  defaultValue : Option Value
  type : AnnotatedType

/-- A field of an object or an interface. -/
structure FieldDef where
  name : String
  location : SourceLocation
  description : Option String
  parameters : OrderedMap InputDef
  type : AnnotatedType

/-- A value of an enum. -/
structure EnumValueDef where
  name : String
  location : SourceLocation
  description : Option String

/-- The scalars that every schema has. -/
inductive BuiltInScalar where
  | boolean
  | float
  | id
  | int
  | string
deriving DecidableEq, Repr, Inhabited

/-- A scalar that a source defines. -/
structure ScalarType where
  name : String
  location : SourceLocation
  description : Option String

/-- An enum. -/
structure EnumType where
  name : String
  location : SourceLocation
  description : Option String
  values : OrderedMap EnumValueDef

/-- An input object. -/
structure InputObjectType where
  name : String
  location : SourceLocation
  description : Option String
  fields : OrderedMap InputDef

/-- An object or an interface. -/
structure FieldedType where
  name : String
  location : SourceLocation
  description : Option String
  interfaces : List TypeReference
  fields : OrderedMap FieldDef

/-- A union. -/
structure UnionType where
  name : String
  location : SourceLocation
  description : Option String
  members : OrderedMap TypeReference

/-- A type of a schema. -/
inductive NamedType where
  | builtIn (s : BuiltInScalar)
  | scalar (t : ScalarType)
  | object (t : FieldedType)
  | interface (t : FieldedType)
  | union (t : UnionType)
  | enum (t : EnumType)
  | inputObject (t : InputObjectType)

/-- A directive of a schema. -/
structure DirectiveDef where
  name : String
  location : SourceLocation
  description : Option String
  locations : List TypeSystem.DirectiveLocation
  parameters : OrderedMap InputDef

namespace BuiltInScalar

/-- The name of a built-in scalar. -/
def name : BuiltInScalar → String
  | boolean => "Boolean"
  | float => "Float"
  | id => "ID"
  | int => "Int"
  | string => "String"

/-- The built-in scalars, sorted by name. -/
def all : List BuiltInScalar := [boolean, float, id, int, string]

end BuiltInScalar

namespace InputDef

/-- The parameter or input field written in the source at `path`. -/
def ofWritten (path : Path) (v : TypeSystem.InputValue) : InputDef :=
  let location := .written path v.position
  ⟨v.name, location, v.description, v.defaultValue, .ofExpr location v.type⟩

/-- A parameter of something built in, with its type in the written form. -/
def builtIn (name type : String) : InputDef := ⟨name, .builtIn, none, none, .builtIn type⟩

/-- Whether a value must be given: the type is non-null and there is no default. -/
def isRequired (p : InputDef) : Bool := !p.type.nullable && p.defaultValue.isNone

/-- Whether two parameters or input fields are the same, locations included. -/
def same (a b : InputDef) : Bool :=
  a.name == b.name && a.location.same b.location && a.description == b.description &&
    a.type.same b.type &&
    match a.defaultValue, b.defaultValue with
    | none, none => true
    | some v, some w => v.same w
    | _, _ => false

end InputDef

namespace FieldDef

/-- Whether two fields are the same, locations included. -/
def same (a b : FieldDef) : Bool :=
  a.name == b.name && a.location.same b.location && a.description == b.description &&
    a.parameters.same InputDef.same b.parameters && a.type.same b.type

end FieldDef

/-- Whether two enum values are the same, locations included. -/
def EnumValueDef.same (a b : EnumValueDef) : Bool :=
  a.name == b.name && a.location.same b.location && a.description == b.description

namespace FieldedType

/-- The names of the interfaces, in written order. -/
def interfaceNames (t : FieldedType) : List String := t.interfaces.map (·.name)

/-- Whether two objects or interfaces are the same, locations included. -/
def same (a b : FieldedType) : Bool :=
  a.name == b.name && a.location.same b.location && a.description == b.description &&
    a.interfaces.length == b.interfaces.length &&
    (a.interfaces.zip b.interfaces).all (fun (r, s) => r.same s) &&
    a.fields.same FieldDef.same b.fields

end FieldedType

namespace NamedType

/-- The name of a type. -/
def name : NamedType → String
  | builtIn s => s.name
  | scalar t => t.name
  | object t => t.name
  | interface t => t.name
  | union t => t.name
  | enum t => t.name
  | inputObject t => t.name

/-- Where a type is defined. -/
def location : NamedType → SourceLocation
  | builtIn _ => .builtIn
  | scalar t => t.location
  | object t => t.location
  | interface t => t.location
  | union t => t.location
  | enum t => t.location
  | inputObject t => t.location

/-- The description of a type. -/
def description : NamedType → Option String
  | builtIn _ => none
  | scalar t => t.description
  | object t => t.description
  | interface t => t.description
  | union t => t.description
  | enum t => t.description
  | inputObject t => t.description

/-- The kind of a type. -/
def kind : NamedType → TypeKind
  | builtIn _ => .scalar
  | scalar _ => .scalar
  | object _ => .object
  | interface _ => .interface
  | union _ => .union
  | enum _ => .enum
  | inputObject _ => .inputObject

/-- The output fields of a type, which objects and interfaces have. -/
def fields? : NamedType → Option (OrderedMap FieldDef)
  | object t => some t.fields
  | interface t => some t.fields
  | _ => none

/-- Whether a type may be the type of an input: scalars, enums and input objects. -/
def isInput (t : NamedType) : Bool :=
  match t.kind with
  | .scalar | .enum | .inputObject => true
  | .object | .interface | .union => false

/-- Whether a type may be the type of an output: every type but the input objects. -/
def isOutput (t : NamedType) : Bool := t.kind ≠ .inputObject

/-- Whether a type has selections: objects, interfaces and unions. -/
def isComposite (t : NamedType) : Bool :=
  match t.kind with
  | .object | .interface | .union => true
  | .scalar | .enum | .inputObject => false

/-- Whether values of a type have no parts: scalars and enums. -/
def isLeaf (t : NamedType) : Bool :=
  match t.kind with
  | .scalar | .enum => true
  | .object | .interface | .union | .inputObject => false

/-- Whether two types are the same, locations included. -/
def same : NamedType → NamedType → Bool
  | builtIn a, builtIn b => a = b
  | scalar a, scalar b =>
    a.name == b.name && a.location.same b.location && a.description == b.description
  | object a, object b => a.same b
  | interface a, interface b => a.same b
  | union a, union b =>
    a.name == b.name && a.location.same b.location && a.description == b.description &&
      a.members.same TypeReference.same b.members
  | enum a, enum b =>
    a.name == b.name && a.location.same b.location && a.description == b.description &&
      a.values.same EnumValueDef.same b.values
  | inputObject a, inputObject b =>
    a.name == b.name && a.location.same b.location && a.description == b.description &&
      a.fields.same InputDef.same b.fields
  | _, _ => false

end NamedType

namespace DirectiveDef

/-- Whether a directive is one that every schema has. -/
def isBuiltIn (d : DirectiveDef) : Bool := d.location = .builtIn

/-- A built-in directive. -/
def builtIn (name : String) (locations : List TypeSystem.DirectiveLocation)
    (parameter : InputDef) : DirectiveDef where
  name := name
  location := .builtIn
  description := none
  locations := locations
  parameters := .ofList [(parameter.name, parameter)]

/-- The places at which a selection may be made conditional. -/
def conditionLocations : List TypeSystem.DirectiveLocation :=
  [.field, .fragmentSpread, .inlineFragment]

/-- Marks what should no longer be used. -/
def deprecated : DirectiveDef :=
  builtIn "deprecated" [.fieldDefinition, .argumentDefinition, .inputFieldDefinition, .enumValue]
    { InputDef.builtIn "reason" "String" with defaultValue := some (.string "No longer supported") }

/-- Selects only if a condition holds. -/
def «include» : DirectiveDef :=
  builtIn "include" conditionLocations (.builtIn "if" "Boolean!")

/-- Selects only if a condition does not hold. -/
def skip : DirectiveDef := builtIn "skip" conditionLocations (.builtIn "if" "Boolean!")

/-- Says where a scalar is specified. -/
def specifiedBy : DirectiveDef := builtIn "specifiedBy" [.scalar] (.builtIn "url" "String!")

/-- The directives that every schema has. -/
def builtIns : List DirectiveDef := [deprecated, «include», skip, specifiedBy]

/-- Whether two directives are the same, locations included. -/
def same (a b : DirectiveDef) : Bool :=
  a.name == b.name && a.location.same b.location && a.description == b.description &&
    a.locations == b.locations && a.parameters.same InputDef.same b.parameters

end DirectiveDef

end GraphQLCheck
