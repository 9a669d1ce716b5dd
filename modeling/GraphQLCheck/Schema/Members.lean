import GraphQLCheck.Schema.BuildError
import GraphQLCheck.Schema.Introspection

/-!
# Building types from their written members

How the members that a definition or an extension writes are added to those that a type has. No
name may come twice among the members of a type, and names that begin with two underscores are
reserved.
-/

namespace GraphQLCheck

/-- Whether a name is reserved: it begins with two underscores. -/
def isReservedName (name : String) : Bool := name.toList.take 2 = ['_', '_']

namespace FieldDef

/-- Adds a written parameter to those of a field. A parameter of the same name is replaced. -/
def addParameter (path : Path) (type field : String) (parameters : OrderedMap InputDef)
    (v : TypeSystem.InputValue) : Except BuildError (OrderedMap InputDef) :=
  let parameter := InputDef.ofWritten path v
  if isReservedName v.name then
    .error (.reservedParameterName type field v.name parameter.location)
  else .ok (parameters.insert v.name parameter)

/-- The written field of a type. -/
def ofWritten (path : Path) (type : String) (f : TypeSystem.Field) :
    Except BuildError FieldDef := do
  let location := .written path f.position
  let parameters ← f.arguments.foldlM (addParameter path type f.name) .empty
  return ⟨f.name, location, f.description, parameters, .ofExpr location f.type⟩

end FieldDef

namespace Members

/-- Adds a written field to those of an object or an interface. -/
def addField (path : Path) (type : String) (fields : OrderedMap FieldDef)
    (f : TypeSystem.Field) : Except BuildError (OrderedMap FieldDef) := do
  let location := .written path f.position
  if isReservedName f.name then throw (.reservedFieldName type f.name location)
  match fields.get? f.name with
  | some first => throw (.duplicateField type f.name first.location location)
  | none => return fields.insert f.name (← FieldDef.ofWritten path type f)

/-- Adds written fields to those of an object or an interface. -/
def addFields (path : Path) (type : String) (fields : OrderedMap FieldDef)
    (written : List TypeSystem.Field) : Except BuildError (OrderedMap FieldDef) :=
  written.foldlM (addField path type) fields

/-- Adds a written field to those of an input object. -/
def addInputField (path : Path) (type : String) (fields : OrderedMap InputDef)
    (v : TypeSystem.InputValue) : Except BuildError (OrderedMap InputDef) :=
  let field := InputDef.ofWritten path v
  if isReservedName v.name then .error (.reservedFieldName type v.name field.location)
  else
    match fields.get? v.name with
    | some first => .error (.duplicateField type v.name first.location field.location)
    | none => .ok (fields.insert v.name field)

/-- Adds written fields to those of an input object. -/
def addInputFields (path : Path) (type : String) (fields : OrderedMap InputDef)
    (written : List TypeSystem.InputValue) : Except BuildError (OrderedMap InputDef) :=
  written.foldlM (addInputField path type) fields

/-- Adds a written value to those of an enum. -/
def addValue (path : Path) (enum : String) (values : OrderedMap EnumValueDef)
    (v : TypeSystem.EnumValue) : Except BuildError (OrderedMap EnumValueDef) :=
  let location := .written path v.position
  match values.get? v.name with
  | some first => .error (.duplicateEnumValue enum v.name first.location location)
  | none => .ok (values.insert v.name ⟨v.name, location, v.description⟩)

/-- Adds written values to those of an enum. -/
def addValues (path : Path) (enum : String) (values : OrderedMap EnumValueDef)
    (written : List TypeSystem.EnumValue) : Except BuildError (OrderedMap EnumValueDef) :=
  written.foldlM (addValue path enum) values

/-- Adds a member to those of a union. It carries the location of what lists it. -/
def addMember (location : SourceLocation) (union : String) (members : OrderedMap TypeReference)
    (name : String) : Except BuildError (OrderedMap TypeReference) :=
  match members.get? name with
  | some first => .error (.duplicateMember union name first.location location)
  | none => .ok (members.insert name ⟨name, location⟩)

/-- Adds members to those of a union. -/
def addMembers (location : SourceLocation) (union : String) (members : OrderedMap TypeReference)
    (names : List String) : Except BuildError (OrderedMap TypeReference) :=
  names.foldlM (addMember location union) members

/-- Adds an interface to those that a type implements. It carries the location of what lists it. -/
def addInterface (location : SourceLocation) (type : String) (interfaces : List TypeReference)
    (name : String) : Except BuildError (List TypeReference) :=
  if name = type then .error (.selfImplementation type location)
  else if interfaces.any (·.name = name) then .error (.duplicateInterface type name location)
  else .ok (interfaces ++ [⟨name, location⟩])

/-- Adds interfaces to those that a type implements. -/
def addInterfaces (location : SourceLocation) (type : String) (interfaces : List TypeReference)
    (names : List String) : Except BuildError (List TypeReference) :=
  names.foldlM (addInterface location type) interfaces

end Members

namespace NamedType

open Members

/-- The object or interface that a definition writes. -/
def fieldedOfDefinition (path : Path) (d : TypeSystem.TypeDefinition) (interfaces : List String)
    (fields : List TypeSystem.Field) : Except BuildError FieldedType := do
  let location := .written path d.position
  let fields ← addFields path d.name .empty fields
  let interfaces ← addInterfaces location d.name [] interfaces
  return ⟨d.name, location, d.description, interfaces, fields⟩

/-- The type that a definition writes. -/
def ofDefinition (path : Path) (d : TypeSystem.TypeDefinition) : Except BuildError NamedType := do
  let location := .written path d.position
  if isReservedName d.name && !path.same Introspection.path then
    throw (.reservedTypeName d.name location)
  match d.body with
  | .scalar => return scalar ⟨d.name, location, d.description⟩
  | .object interfaces fields => return object (← fieldedOfDefinition path d interfaces fields)
  | .interface interfaces fields =>
    return interface (← fieldedOfDefinition path d interfaces fields)
  | .union members =>
    return union ⟨d.name, location, d.description, ← addMembers location d.name .empty members⟩
  | .enum values =>
    return enum ⟨d.name, location, d.description, ← addValues path d.name .empty values⟩
  | .inputObject fields =>
    return inputObject
      ⟨d.name, location, d.description, ← addInputFields path d.name .empty fields⟩

/-- The object or interface with what an extension adds to it. -/
def extendFielded (path : Path) (e : TypeSystem.TypeExtension) (interfaces : List String)
    (fields : List TypeSystem.Field) (t : FieldedType) : Except BuildError FieldedType := do
  let location := .written path e.position
  let interfaces ← addInterfaces location e.name t.interfaces interfaces
  let fields ← addFields path e.name t.fields fields
  return { t with interfaces := interfaces, fields := fields }

/-- The type with what an extension adds to it. The directives that extensions of scalars add are
not kept. -/
def extend (path : Path) (e : TypeSystem.TypeExtension) (t : NamedType) :
    Except BuildError NamedType := do
  let location := .written path e.position
  match t, e.body with
  | builtIn _, .scalar => throw (.extensionOfBuiltIn e.name location)
  | scalar t, .scalar => return scalar t
  | object t, .object interfaces fields =>
    return object (← extendFielded path e interfaces fields t)
  | interface t, .interface interfaces fields =>
    return interface (← extendFielded path e interfaces fields t)
  | union t, .union members =>
    return union { t with members := ← addMembers location e.name t.members members }
  | enum t, .enum values =>
    return enum { t with values := ← addValues path e.name t.values values }
  | inputObject t, .inputObject fields =>
    return inputObject { t with fields := ← addInputFields path e.name t.fields fields }
  | t, body => throw (.extensionOfOtherKind e.name body.kind t.kind location)

end NamedType

end GraphQLCheck
