import GraphQLCheck.Language.Document
import GraphQLCheck.Schema.References

/-!
# Schemas

A `Schema` holds the types and directives that are defined, and the root types of the operations.
Looking up a field finds the meta-fields too: `__typename` on every type that has selections, and
`__schema` and `__type` on the root type of queries.
-/

namespace GraphQLCheck

/-- A schema. -/
structure Schema where
  types : TypeMap
  directives : OrderedMap DirectiveDef
  query : TypeReference
  mutation : Option TypeReference
  subscription : Option TypeReference

/-- A type that a reference stands for, with the lists and non-null marks around it. -/
inductive TypeRef where
  | named (type : NamedType) (nullable : Bool)
  | list (item : TypeRef) (nullable : Bool)

namespace TypeRef

/-- The type inside all lists. -/
def core : TypeRef → NamedType
  | named type _ => type
  | list item _ => item.core

/-- Whether the outermost layer is nullable. -/
def nullable : TypeRef → Bool
  | named _ nullable => nullable
  | list _ nullable => nullable

/-- The same type, not nullable. -/
def nonNull : TypeRef → TypeRef
  | named type _ => named type false
  | list item _ => list item false

/-- The type of the items of a list. -/
def item? : TypeRef → Option TypeRef
  | named _ _ => none
  | list item _ => some item

/-- Whether the type inside all lists is an input type. -/
def isInput (t : TypeRef) : Bool := t.core.isInput

/-- Whether the type inside all lists is an output type. -/
def isOutput (t : TypeRef) : Bool := t.core.isOutput

/-- The written form of the type. -/
def text : TypeRef → String
  | named type nullable => type.name ++ if nullable then "" else "!"
  | list item nullable => "[" ++ item.text ++ "]" ++ if nullable then "" else "!"

end TypeRef

namespace MetaField

/-- A field that no type writes. -/
def make (name type : String) (parameters : List InputDef) : FieldDef where
  name := name
  location := .builtIn
  description := none
  parameters := .ofList (parameters.map fun p => (p.name, p))
  type := .builtIn type

/-- The field that tells the name of a type. -/
def typename : FieldDef := make "__typename" "String!" []

/-- The field that gives the schema. -/
def schema : FieldDef := make "__schema" "__Schema!" []

/-- The field that gives a type by name. -/
def type : FieldDef := make "__type" "__Type" [.builtIn "name" "String!"]

end MetaField

namespace Schema

/-- The type with a name. -/
def type? (s : Schema) (name : String) : Option NamedType := s.types.get? name

/-- The directive with a name. -/
def directive? (s : Schema) (name : String) : Option DirectiveDef := s.directives.get? name

/-- The reference to the root type of a kind of operation. -/
def root? (s : Schema) : OperationKind → Option TypeReference
  | .query => some s.query
  | .mutation => s.mutation
  | .subscription => s.subscription

/-- The root type of a kind of operation. -/
def rootType? (s : Schema) (kind : OperationKind) : Option NamedType :=
  (s.root? kind).bind fun r => s.type? r.name

/-- The definition of a field of a type of the schema, meta-fields included. -/
def field? (s : Schema) (parent : NamedType) (name : String) : Option FieldDef :=
  if name = "__typename" ∧ parent.isComposite then some MetaField.typename
  else if name = "__schema" ∧ parent.name = s.query.name then some MetaField.schema
  else if name = "__type" ∧ parent.name = s.query.name then some MetaField.type
  else parent.fields?.bind (·.get? name)

/-- The type an annotated type stands for, if the type at its core is defined. -/
def resolve? (s : Schema) : AnnotatedType → Option TypeRef
  | .named r nullable => (s.type? r.name).map (.named · nullable)
  | .list item nullable _ => (s.resolve? item).map (.list · nullable)

/-- The type a written type stands for, if the type at its core is defined. -/
def typeOfExpr? (s : Schema) : TypeExpr → Option TypeRef
  | .named name => (s.type? name).map (.named · true)
  | .list item => (s.typeOfExpr? item).map (.list · true)
  | .nonNull inner => (s.typeOfExpr? inner).map TypeRef.nonNull

/-- The interfaces that a type implements, as far as they are defined. -/
def interfacesOf (s : Schema) (t : FieldedType) : List FieldedType :=
  t.interfaces.filterMap fun r =>
    match s.type? r.name with
    | some (.interface i) => some i
    | _ => none

/-- The members of a union, as far as they are defined. -/
def membersOf (s : Schema) (t : UnionType) : List NamedType :=
  t.members.values.filterMap fun r => s.type? r.name

/-- Whether two schemas define the same, locations included. -/
def same (a b : Schema) : Bool :=
  a.types.same NamedType.same b.types && a.directives.same DirectiveDef.same b.directives &&
    a.query.same b.query && sameOption a.mutation b.mutation &&
    sameOption a.subscription b.subscription
where
  /-- Whether two optional references are both absent or the same. -/
  sameOption : Option TypeReference → Option TypeReference → Bool
    | none, none => true
    | some r, some s => r.same s
    | _, _ => false

end Schema

end GraphQLCheck
