import GraphQLCheck.Schema.ReferenceError

/-!
# Checking the references between types

`referenceErrors` lists every reference of the types of a map that is not allowed: types in the
order of their names, and the references of a type in written order.
-/

namespace GraphQLCheck

/-- The types that are defined, under their names. -/
abbrev TypeMap := OrderedMap NamedType

namespace TypeMap

/-- The error of an annotated type: its core is not defined, or not of an allowed class. -/
def useErrors (types : TypeMap) (type : AnnotatedType) (allowed : NamedType → Bool)
    (notAllowed : String → ReferenceError) : List ReferenceError :=
  let reference := type.core
  match types.get? reference.name with
  | some t => if allowed t then [] else [notAllowed reference.name]
  | none => [.undefinedType reference.location reference.name]

/-- The error of an interface that a type implements. -/
def interfaceErrors (types : TypeMap) (t : FieldedType) (name : String) : List ReferenceError :=
  match types.get? name with
  | some (.interface _) => []
  | some _ => [.implementsNonInterface t.location t.name name]
  | none => [.implementsUndefinedInterface t.location t.name name]

/-- The error of a parameter. -/
def parameterErrors (types : TypeMap) (p : InputDef) : List ReferenceError :=
  types.useErrors p.type NamedType.isInput (.parameterOfOutputType p.location p.name)

/-- The errors of a field of a type: that of its own type before those of its parameters. -/
def fieldErrors (types : TypeMap) (type : String) (entry : String × FieldDef) :
    List ReferenceError :=
  let f := entry.2
  types.useErrors f.type NamedType.isOutput
      (.outputFieldOfInputType f.location type entry.1) ++
    f.parameters.values.flatMap types.parameterErrors

/-- The errors of an object or an interface: those of its interfaces before those of its fields. -/
def fieldedErrors (types : TypeMap) (t : FieldedType) : List ReferenceError :=
  t.interfaceNames.flatMap (types.interfaceErrors t) ++
    t.fields.entries.flatMap (types.fieldErrors t.name)

/-- The error of a field of an input object. -/
def inputFieldErrors (types : TypeMap) (type : String) (entry : String × InputDef) :
    List ReferenceError :=
  let f := entry.2
  types.useErrors f.type NamedType.isInput
    (.inputFieldOfOutputType f.location type entry.1)

/-- The error of a member of a union. -/
def memberErrors (types : TypeMap) (union : String) (entry : String × TypeReference) :
    List ReferenceError :=
  match types.get? entry.1 with
  | some (.object _) => []
  | some t => [.nonObjectUnionMember entry.2.location union entry.1 t.kind]
  | none => [.undefinedType entry.2.location entry.1]

/-- The errors of the type under a name. -/
def typeErrors (types : TypeMap) (entry : String × NamedType) : List ReferenceError :=
  match entry.2 with
  | .builtIn _ => []
  | .scalar _ => []
  | .object t => types.fieldedErrors t
  | .interface t => types.fieldedErrors t
  | .union t => t.members.entries.flatMap (types.memberErrors entry.1)
  | .enum t => if t.values.entries = [] then [.emptyEnum t.location entry.1] else []
  | .inputObject t => t.fields.entries.flatMap (types.inputFieldErrors entry.1)

/-- The entries of a map of types, sorted by name. -/
def sortedEntries (types : TypeMap) : List (String × NamedType) :=
  types.entries.mergeSort fun a b => decide (a.1 ≤ b.1)

/-- The references that are not allowed. -/
def referenceErrors (types : TypeMap) : List ReferenceError :=
  types.sortedEntries.flatMap types.typeErrors

end TypeMap

end GraphQLCheck
