import GraphQLCheck.Language.Document

/-!
# Nodes

A uniform view of the tree of an executable document: every part of it that a walk stops at is a
`Node`, whatever type the part has. A node knows its kind, its name and place if it has one, and
its children in the order in which they are visited.

Main statement: a child is smaller than its parent (`sizeOf_lt_of_mem_children`), so walks end.
-/

namespace GraphQLCheck

/-- A part of an executable document. A variable used as a value is a `variable`, and the name of
a type is a `namedType`, be it a fragment's type condition or part of a variable's type. -/
inductive Node where
  | argument (a : Argument)
  | booleanValue (b : Bool)
  | directive (d : Directive)
  | document (d : Document)
  | enumValue (name : String)
  | field (f : Field)
  | floatValue (x : Double)
  | fragmentDefinition (d : FragmentDefinition)
  | fragmentSpread (s : FragmentSpread)
  | inlineFragment (f : InlineFragment)
  | intValue (n : Int)
  | listType (item : TypeExpr)
  | listValue (items : List Value)
  | namedType (name : String)
  | nonNullType (inner : TypeExpr)
  | nullValue
  | objectField (f : ObjectField)
  | objectValue (fields : List ObjectField)
  | operationDefinition (d : OperationDefinition)
  | selectionSet (s : SelectionSet)
  | stringValue (s : String)
  | variable (name : String)
  | variableDefinition (d : VariableDefinition)

namespace Node

/-- The node of a definition. -/
def ofDefinition : Definition → Node
  | .operation d => operationDefinition d
  | .fragment d => fragmentDefinition d

/-- The node of a selection. -/
def ofSelection : Selection → Node
  | .field f => field f
  | .spread s => fragmentSpread s
  | .inline f => inlineFragment f

/-- The node of a type. -/
def ofType : TypeExpr → Node
  | .named name => namedType name
  | .list item => listType item
  | .nonNull inner => nonNullType inner

/-- The node of a value. -/
def ofValue : Value → Node
  | .variable name => .variable name
  | .int n => intValue n
  | .float x => floatValue x
  | .string s => stringValue s
  | .boolean b => booleanValue b
  | .null => nullValue
  | .enum name => enumValue name
  | .list items => listValue items
  | .object fields => objectValue fields

/-- The children of a node, in the order in which they are visited. The empty selection set of a
field that selects nothing further is no child. -/
def children : Node → List Node
  | argument a => [ofValue a.value]
  | directive d => d.arguments.map argument
  | document d => d.definitions.map ofDefinition
  | field f =>
    f.arguments.map argument ++ f.directives.map directive ++
      if f.selectionSet.items = [] then [] else [selectionSet f.selectionSet]
  | fragmentDefinition d =>
    namedType d.typeCondition :: d.directives.map directive ++ [selectionSet d.selectionSet]
  | fragmentSpread s => s.directives.map directive
  | inlineFragment f =>
    f.typeCondition.toList.map namedType ++ f.directives.map directive ++
      [selectionSet f.selectionSet]
  | listType item => [ofType item]
  | nonNullType inner => [ofType inner]
  | listValue items => items.map ofValue
  | objectField f => [ofValue f.value]
  | objectValue fields => fields.map objectField
  | operationDefinition d =>
    d.variableDefinitions.map variableDefinition ++ d.directives.map directive ++
      [selectionSet d.selectionSet]
  | selectionSet s => s.items.map ofSelection
  | variableDefinition d =>
    [.variable d.name, ofType d.type] ++ d.defaultValue.toList.map ofValue
  | booleanValue _ | enumValue _ | floatValue _ | intValue _ | namedType _ | nullValue
  | stringValue _ | .variable _ => []

/-- The name of the kind of a node. -/
def kind : Node → String
  | argument _ => "Argument"
  | booleanValue _ => "BooleanValue"
  | directive _ => "Directive"
  | document _ => "Document"
  | enumValue _ => "EnumValue"
  | field _ => "Field"
  | floatValue _ => "FloatValue"
  | fragmentDefinition _ => "FragmentDefinition"
  | fragmentSpread _ => "FragmentSpread"
  | inlineFragment _ => "InlineFragment"
  | intValue _ => "IntValue"
  | listType _ => "ListType"
  | listValue _ => "ListValue"
  | namedType _ => "NamedType"
  | nonNullType _ => "NonNullType"
  | nullValue => "NullValue"
  | objectField _ => "ObjectField"
  | objectValue _ => "ObjectValue"
  | operationDefinition _ => "OperationDefinition"
  | selectionSet _ => "SelectionSet"
  | stringValue _ => "StringValue"
  | .variable _ => "Variable"
  | variableDefinition _ => "VariableDefinition"

/-- The name of a node, if it is of a kind that has names. A field has its own name, whatever its
alias. -/
def name? : Node → Option String
  | argument a => some a.name
  | directive d => some d.name
  | field f => some f.name
  | fragmentDefinition d => some d.name
  | fragmentSpread s => some s.name
  | namedType name => some name
  | objectField f => some f.name
  | operationDefinition d => d.name
  | .variable name => some name
  | variableDefinition d => some d.name
  | _ => none

/-- The place of a node, if it is of a kind that has places. -/
def position? : Node → Option Position
  | directive d => some d.position
  | field f => some f.position
  | fragmentDefinition d => some d.position
  | fragmentSpread s => some s.position
  | inlineFragment f => some f.position
  | operationDefinition d => some d.position
  | selectionSet s => some s.position
  | variableDefinition d => some d.position
  | _ => none

/-- The text `Kind:name`, or `Kind` for a node without a name. -/
def label (n : Node) : String :=
  match n.name? with
  | some name => n.kind ++ ":" ++ name
  | none => n.kind

/-- The node of a value is as large as the value. -/
@[simp] theorem sizeOf_ofValue (v : Value) : sizeOf (ofValue v) = sizeOf v := by
  cases v <;> simp [ofValue]

/-- The node of a type is as large as the type. -/
@[simp] theorem sizeOf_ofType (t : TypeExpr) : sizeOf (ofType t) = sizeOf t := by
  cases t <;> simp [ofType]

/-- The node of a selection is as large as the selection. -/
@[simp] theorem sizeOf_ofSelection (s : Selection) : sizeOf (ofSelection s) = sizeOf s := by
  cases s <;> simp [ofSelection]

/-- The node of a definition is as large as the definition. -/
@[simp] theorem sizeOf_ofDefinition (d : Definition) : sizeOf (ofDefinition d) = sizeOf d := by
  cases d <;> simp [ofDefinition]

/-- An element mapped into a list of nodes is smaller than a node around the list. -/
theorem sizeOf_lt_of_mem_map {α : Type} [SizeOf α] {f : α → Node} {xs : List α} {c : Node}
    {k bound : Nat} (hf : ∀ x, sizeOf (f x) ≤ k + sizeOf x) (hk : k + sizeOf xs ≤ bound)
    (hc : c ∈ xs.map f) : sizeOf c < bound := by
  obtain ⟨x, hx, rfl⟩ := List.mem_map.1 hc
  have := List.sizeOf_lt_of_mem hx
  have := hf x
  omega

/-- A child is smaller than its parent. -/
theorem sizeOf_lt_of_mem_children {n c : Node} (hc : c ∈ n.children) : sizeOf c < sizeOf n := by
  cases n with
  | argument a =>
    obtain ⟨_, _⟩ := a
    simp only [children, List.mem_singleton] at hc
    subst hc
    simp only [argument.sizeOf_spec, Argument.mk.sizeOf_spec, sizeOf_ofValue]
    omega
  | directive d =>
    obtain ⟨_, _, _⟩ := d
    refine sizeOf_lt_of_mem_map (k := 1) (fun x => ?_) ?_ hc <;> simp
  | document d =>
    obtain ⟨_⟩ := d
    refine sizeOf_lt_of_mem_map (k := 0) (fun x => by simp) ?_ hc
    simp only [document.sizeOf_spec, Document.mk.sizeOf_spec]
    omega
  | field f =>
    obtain ⟨_, _, _, _, _, _⟩ := f
    simp only [children, List.mem_append, List.append_assoc] at hc
    rcases hc with hc | hc | hc
    · refine sizeOf_lt_of_mem_map (k := 1) (fun x => by simp) ?_ hc
      simp only [field.sizeOf_spec, Field.mk.sizeOf_spec]
      omega
    · refine sizeOf_lt_of_mem_map (k := 1) (fun x => by simp) ?_ hc
      simp only [field.sizeOf_spec, Field.mk.sizeOf_spec]
      omega
    · split at hc
      · simp at hc
      · simp only [List.mem_singleton] at hc
        subst hc
        simp only [field.sizeOf_spec, Field.mk.sizeOf_spec, selectionSet.sizeOf_spec]
        omega
  | fragmentDefinition d =>
    obtain ⟨_, _, _, _, _⟩ := d
    simp only [children, List.mem_append, List.mem_cons, List.not_mem_nil, or_false,
      List.cons_append] at hc
    rcases hc with rfl | hc | rfl
    · simp only [fragmentDefinition.sizeOf_spec, FragmentDefinition.mk.sizeOf_spec,
        namedType.sizeOf_spec]
      omega
    · refine sizeOf_lt_of_mem_map (k := 1) (fun x => by simp) ?_ hc
      simp only [fragmentDefinition.sizeOf_spec, FragmentDefinition.mk.sizeOf_spec]
      omega
    · simp only [fragmentDefinition.sizeOf_spec, FragmentDefinition.mk.sizeOf_spec,
        selectionSet.sizeOf_spec]
      omega
  | fragmentSpread s =>
    obtain ⟨_, _, _⟩ := s
    refine sizeOf_lt_of_mem_map (k := 1) (fun x => ?_) ?_ hc <;> simp
  | inlineFragment f =>
    obtain ⟨_, condition, _, _⟩ := f
    simp only [children, List.mem_append, List.append_assoc, List.mem_singleton] at hc
    rcases hc with hc | hc | rfl
    · cases condition with
      | none => simp at hc
      | some name =>
        simp only [Option.toList_some, List.map_cons, List.map_nil, List.mem_singleton] at hc
        subst hc
        simp only [inlineFragment.sizeOf_spec, InlineFragment.mk.sizeOf_spec,
          namedType.sizeOf_spec, Option.some.sizeOf_spec]
        omega
    · refine sizeOf_lt_of_mem_map (k := 1) (fun x => by simp) ?_ hc
      simp only [inlineFragment.sizeOf_spec, InlineFragment.mk.sizeOf_spec]
      omega
    · simp only [inlineFragment.sizeOf_spec, InlineFragment.mk.sizeOf_spec,
        selectionSet.sizeOf_spec]
      omega
  | listType item =>
    simp only [children, List.mem_singleton] at hc
    subst hc
    simp
  | nonNullType inner =>
    simp only [children, List.mem_singleton] at hc
    subst hc
    simp
  | listValue items =>
    refine sizeOf_lt_of_mem_map (k := 0) (fun x => ?_) ?_ hc <;> simp
  | objectField f =>
    obtain ⟨_, _⟩ := f
    simp only [children, List.mem_singleton] at hc
    subst hc
    simp only [objectField.sizeOf_spec, ObjectField.mk.sizeOf_spec, sizeOf_ofValue]
    omega
  | objectValue fields =>
    refine sizeOf_lt_of_mem_map (k := 1) (fun x => ?_) ?_ hc <;> simp
  | operationDefinition d =>
    obtain ⟨_, _, _, _, _, _⟩ := d
    simp only [children, List.mem_append, List.append_assoc, List.mem_singleton] at hc
    rcases hc with hc | hc | rfl
    · refine sizeOf_lt_of_mem_map (k := 1) (fun x => by simp) ?_ hc
      simp only [operationDefinition.sizeOf_spec, OperationDefinition.mk.sizeOf_spec]
      omega
    · refine sizeOf_lt_of_mem_map (k := 1) (fun x => by simp) ?_ hc
      simp only [operationDefinition.sizeOf_spec, OperationDefinition.mk.sizeOf_spec]
      omega
    · simp only [operationDefinition.sizeOf_spec, OperationDefinition.mk.sizeOf_spec,
        selectionSet.sizeOf_spec]
      omega
  | selectionSet s =>
    obtain ⟨_, _, _⟩ := s
    refine sizeOf_lt_of_mem_map (k := 0) (fun x => by simp) ?_ hc
    simp only [selectionSet.sizeOf_spec, SelectionSet.mk.sizeOf_spec]
    omega
  | variableDefinition d =>
    obtain ⟨_, _, type, default⟩ := d
    simp only [children, List.mem_append, List.mem_cons, List.not_mem_nil, or_false] at hc
    rcases hc with (rfl | rfl) | hc
    · simp only [variableDefinition.sizeOf_spec, VariableDefinition.mk.sizeOf_spec,
        Node.variable.sizeOf_spec]
      omega
    · simp only [variableDefinition.sizeOf_spec, VariableDefinition.mk.sizeOf_spec, sizeOf_ofType]
      omega
    · cases default with
      | none => simp at hc
      | some v =>
        simp only [Option.toList_some, List.map_cons, List.map_nil, List.mem_singleton] at hc
        subst hc
        simp only [variableDefinition.sizeOf_spec, VariableDefinition.mk.sizeOf_spec,
          sizeOf_ofValue, Option.some.sizeOf_spec]
        omega
  | _ => simp [children] at hc

end Node

end GraphQLCheck
