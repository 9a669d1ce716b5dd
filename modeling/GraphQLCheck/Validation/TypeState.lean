import GraphQLCheck.Node
import GraphQLCheck.Schema.Basic

/-!
# Types in effect

A `TypeState` keeps, while an executable document is walked over, which types and definitions of
the schema are in effect at the current node. It has six stacks. Entering a node pushes onto some
of them, depending on its kind, and leaving the node pops what was pushed; where a look-up finds
nothing, an empty entry is pushed.

| Node                                  | Stacks                      |
|---------------------------------------|-----------------------------|
| operation                             | types, parent types         |
| selection set                         | parent types                |
| field                                 | fields, types               |
| inline fragment, fragment definition  | types                       |
| directive                             | directives                  |
| argument                              | arguments, input types      |
| variable definition, list, object field | input types               |
-/

namespace GraphQLCheck

/-- The types and definitions in effect. The innermost entry of a stack is its head. -/
structure TypeState where
  arguments : List (Option InputDef)
  directives : List (Option DirectiveDef)
  fields : List (Option FieldDef)
  inputTypes : List (Option TypeRef)
  parentTypes : List (Option NamedType)
  types : List (Option TypeRef)

namespace TypeState

/-- The state before a walk: every stack is empty. -/
def empty : TypeState := ⟨[], [], [], [], [], []⟩

instance : Inhabited TypeState := ⟨empty⟩

/-- The definition of the argument being visited. -/
def argument? (t : TypeState) : Option InputDef := t.arguments.head?.join

/-- The definition of the directive being visited. -/
def directive? (t : TypeState) : Option DirectiveDef := t.directives.head?.join

/-- The definition of the field being visited. -/
def field? (t : TypeState) : Option FieldDef := t.fields.head?.join

/-- The input type that is expected of the value being visited. -/
def inputType? (t : TypeState) : Option TypeRef := t.inputTypes.head?.join

/-- The type whose fields are being selected. -/
def parentType? (t : TypeState) : Option NamedType := t.parentTypes.head?.join

/-- The output type of the field, fragment or operation being visited. -/
def type? (t : TypeState) : Option TypeRef := t.types.head?.join

/-- The named type inside the output type being visited. -/
def namedType? (t : TypeState) : Option NamedType := t.type?.map TypeRef.core

/-- The depths of the stacks: arguments, directives, fields, input types, parent types, types. -/
def depths (t : TypeState) : List Nat :=
  [t.arguments.length, t.directives.length, t.fields.length, t.inputTypes.length,
    t.parentTypes.length, t.types.length]

/-- Whether every stack is empty. -/
def isBalanced (t : TypeState) : Bool := t.depths.all (· = 0)

/-- The reference to a type, if it is an output type. -/
def outputType (t : NamedType) : Option TypeRef := if t.isOutput then some (.named t true) else none

/-- The definition of an argument. Inside a directive it is one of the directive's parameters, even
if the directive is unknown; elsewhere it is one of the field's. -/
def argumentDef (t : TypeState) (name : String) : Option InputDef :=
  match t.directives with
  | directive :: _ => directive.bind (·.parameters.get? name)
  | [] => t.field?.bind (·.parameters.get? name)

/-- The type that is expected of the items of a list. A list that is given where no list is
expected stands for its items. -/
def itemType (t : TypeState) : Option TypeRef := t.inputType?.map fun type => type.item?.getD type

/-- The input object that is expected of the value being visited. -/
def inputObject? (t : TypeState) : Option InputObjectType :=
  t.inputType?.bind fun type =>
    match type.core with
    | .inputObject i => some i
    | _ => none

/-- The state inside a node. -/
def enter (s : Schema) (n : Node) (t : TypeState) : TypeState :=
  match n with
  | .argument a =>
    let argument := t.argumentDef a.name
    { t with
      arguments := argument :: t.arguments
      inputTypes := argument.bind (s.resolve? ·.type) :: t.inputTypes }
  | .directive d => { t with directives := s.directive? d.name :: t.directives }
  | .field f =>
    let field := t.parentType?.bind (s.field? · f.name)
    { t with
      fields := field :: t.fields
      types := field.bind (s.resolve? ·.type) :: t.types }
  | .fragmentDefinition d =>
    { t with types := (s.type? d.typeCondition).bind outputType :: t.types }
  | .inlineFragment f =>
    let type :=
      match f.typeCondition with
      | some name => s.type? name
      | none => t.namedType?
    { t with types := type.bind outputType :: t.types }
  | .listValue _ => { t with inputTypes := t.itemType :: t.inputTypes }
  | .objectField f =>
    let field := t.inputObject?.bind (·.fields.get? f.name)
    { t with inputTypes := field.bind (s.resolve? ·.type) :: t.inputTypes }
  | .operationDefinition d =>
    let root := s.rootType? d.kind
    { t with
      types := root.map (.named · true) :: t.types
      parentTypes := root :: t.parentTypes }
  | .selectionSet _ =>
    { t with parentTypes := t.namedType?.filter NamedType.isComposite :: t.parentTypes }
  | .variableDefinition d =>
    { t with inputTypes := (s.typeOfExpr? d.type).filter TypeRef.isInput :: t.inputTypes }
  | _ => t

/-- The state after a node. Popping an empty stack leaves it empty. -/
def leave (n : Node) (t : TypeState) : TypeState :=
  match n with
  | .argument _ => { t with arguments := t.arguments.tail, inputTypes := t.inputTypes.tail }
  | .directive _ => { t with directives := t.directives.tail }
  | .field _ => { t with fields := t.fields.tail, types := t.types.tail }
  | .fragmentDefinition _ | .inlineFragment _ => { t with types := t.types.tail }
  | .listValue _ | .objectField _ | .variableDefinition _ =>
    { t with inputTypes := t.inputTypes.tail }
  | .operationDefinition _ => { t with types := t.types.tail, parentTypes := t.parentTypes.tail }
  | .selectionSet _ => { t with parentTypes := t.parentTypes.tail }
  | _ => t

/-- Leaving a node undoes what entering it did. -/
@[simp] theorem leave_enter (s : Schema) (n : Node) (t : TypeState) :
    leave n (enter s n t) = t := by
  cases n <;> rfl

end TypeState

end GraphQLCheck
