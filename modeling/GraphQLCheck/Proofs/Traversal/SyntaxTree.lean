import GraphQLCheck.Proofs.Traversal.Expansion

/-!
# The syntax tree of a document

`Document.syntaxTree` is the tree of everything that is written in a document, by recursion over its
syntax: the definitions, in them the variable definitions with the variable, the layers of its type
and its default value, the directives with their arguments and the values given for these, and the
selections with their type conditions and selection sets. The one thing left out is the selection
set of a field that selects nothing.

`Node.tree` is the tree that a walk goes through, which finds the children of a node by its kind.

Main statement: the walk of a document goes through its syntax tree (`Node.tree_document`).
-/

namespace GraphQLCheck

mutual

/-- The tree of a value. -/
def Value.syntaxTree : Value → NodeTree
  | .variable name => .mk (.variable name) []
  | .int n => .mk (.intValue n) []
  | .float x => .mk (.floatValue x) []
  | .string s => .mk (.stringValue s) []
  | .boolean b => .mk (.booleanValue b) []
  | .null => .mk .nullValue []
  | .enum name => .mk (.enumValue name) []
  | .list items => .mk (.listValue items) (Value.syntaxTrees items)
  | .object fields => .mk (.objectValue fields) (ObjectField.syntaxTrees fields)

/-- The trees of the items of a list. -/
def Value.syntaxTrees : List Value → List NodeTree
  | [] => []
  | v :: vs => v.syntaxTree :: Value.syntaxTrees vs

/-- The trees of the fields of an object. -/
def ObjectField.syntaxTrees : List ObjectField → List NodeTree
  | [] => []
  | f :: fs => f.syntaxTree :: ObjectField.syntaxTrees fs

/-- The tree of a field of an object. -/
def ObjectField.syntaxTree : ObjectField → NodeTree
  | ⟨name, value⟩ => .mk (.objectField ⟨name, value⟩) [value.syntaxTree]

end

/-- The tree of a written type, one node for each of its layers. -/
def TypeExpr.syntaxTree : TypeExpr → NodeTree
  | .named name => .mk (.namedType name) []
  | .list item => .mk (.listType item) [item.syntaxTree]
  | .nonNull inner => .mk (.nonNullType inner) [inner.syntaxTree]

/-- The tree of an argument. -/
def Argument.syntaxTree (a : Argument) : NodeTree := .mk (.argument a) [a.value.syntaxTree]

/-- The tree of a directive. -/
def Directive.syntaxTree (d : Directive) : NodeTree :=
  .mk (.directive d) (d.arguments.map Argument.syntaxTree)

/-- The tree of a type condition. -/
def typeConditionTree (name : String) : NodeTree := .mk (.namedType name) []

/-- The tree of a fragment spread. -/
def FragmentSpread.syntaxTree (s : FragmentSpread) : NodeTree :=
  .mk (.fragmentSpread s) (s.directives.map Directive.syntaxTree)

mutual

/-- The tree of a field. The selection set of a field that selects nothing is left out. -/
def Field.syntaxTree : Field → NodeTree
  | ⟨position, aliasName, name, arguments, directives, ⟨opening, closing, []⟩⟩ =>
    .mk (.field ⟨position, aliasName, name, arguments, directives, ⟨opening, closing, []⟩⟩)
      (arguments.map Argument.syntaxTree ++ directives.map Directive.syntaxTree)
  | ⟨position, aliasName, name, arguments, directives, ⟨opening, closing, item :: items⟩⟩ =>
    .mk
      (.field ⟨position, aliasName, name, arguments, directives, ⟨opening, closing, item :: items⟩⟩)
      (arguments.map Argument.syntaxTree ++ directives.map Directive.syntaxTree ++
        [.mk (.selectionSet ⟨opening, closing, item :: items⟩)
          (item.syntaxTree :: Selection.syntaxTrees items)])

/-- The tree of a selection set. -/
def SelectionSet.syntaxTree : SelectionSet → NodeTree
  | ⟨opening, closing, items⟩ =>
    .mk (.selectionSet ⟨opening, closing, items⟩) (Selection.syntaxTrees items)

/-- The trees of the items of a selection set. -/
def Selection.syntaxTrees : List Selection → List NodeTree
  | [] => []
  | item :: items => item.syntaxTree :: Selection.syntaxTrees items

/-- The tree of a selection. -/
def Selection.syntaxTree : Selection → NodeTree
  | .field f => f.syntaxTree
  | .spread s => s.syntaxTree
  | .inline f => f.syntaxTree

/-- The tree of an inline fragment. -/
def InlineFragment.syntaxTree : InlineFragment → NodeTree
  | ⟨position, typeCondition, directives, selectionSet⟩ =>
    .mk (.inlineFragment ⟨position, typeCondition, directives, selectionSet⟩)
      (typeCondition.toList.map typeConditionTree ++ directives.map Directive.syntaxTree ++
        [selectionSet.syntaxTree])

end

/-- The tree of the definition of a variable: the variable, its type, and its default value. -/
def VariableDefinition.syntaxTree (d : VariableDefinition) : NodeTree :=
  .mk (.variableDefinition d)
    (.mk (.variable d.name) [] :: d.type.syntaxTree :: d.defaultValue.toList.map Value.syntaxTree)

/-- The tree of an operation. -/
def OperationDefinition.syntaxTree (d : OperationDefinition) : NodeTree :=
  .mk (.operationDefinition d)
    (d.variableDefinitions.map VariableDefinition.syntaxTree ++
      d.directives.map Directive.syntaxTree ++ [d.selectionSet.syntaxTree])

/-- The tree of a fragment definition. -/
def FragmentDefinition.syntaxTree (d : FragmentDefinition) : NodeTree :=
  .mk (.fragmentDefinition d)
    (typeConditionTree d.typeCondition :: d.directives.map Directive.syntaxTree ++
      [d.selectionSet.syntaxTree])

/-- The tree of a definition. -/
def Definition.syntaxTree : Definition → NodeTree
  | .operation d => d.syntaxTree
  | .fragment d => d.syntaxTree

/-- The tree of a document. -/
def Document.syntaxTree (d : Document) : NodeTree :=
  .mk (.document d) (d.definitions.map Definition.syntaxTree)

namespace Node

/-- The tree of a node and everything below it. -/
def tree (n : Node) : NodeTree :=
  .mk n (n.children.attach.map fun c => tree c.1)
termination_by sizeOf n
decreasing_by exact sizeOf_lt_of_mem_children c.2

/-- Below a node are the trees of its children. -/
theorem tree_eq (n : Node) : n.tree = .mk n (n.children.map tree) := by
  rw [tree, List.attach_map_val]

/-- The trees of nodes that are made of some parts are the syntax trees of the parts. -/
theorem map_tree {α : Type} {node : α → Node} {syntaxTree : α → NodeTree}
    (h : ∀ a, (node a).tree = syntaxTree a) (as : List α) :
    (as.map node).map tree = as.map syntaxTree := by
  rw [List.map_map]
  exact List.map_congr_left fun a _ => h a

mutual

/-- The tree of the node of a value is its syntax tree. -/
theorem tree_ofValue : ∀ v : Value, (ofValue v).tree = v.syntaxTree
  | .variable name => by simp [ofValue, tree_eq, children, Value.syntaxTree]
  | .int n => by simp [ofValue, tree_eq, children, Value.syntaxTree]
  | .float x => by simp [ofValue, tree_eq, children, Value.syntaxTree]
  | .string s => by simp [ofValue, tree_eq, children, Value.syntaxTree]
  | .boolean b => by simp [ofValue, tree_eq, children, Value.syntaxTree]
  | .null => by simp [ofValue, tree_eq, children, Value.syntaxTree]
  | .enum name => by simp [ofValue, tree_eq, children, Value.syntaxTree]
  | .list items => by
    rw [ofValue, tree_eq, children, map_tree_ofValue items, Value.syntaxTree]
  | .object fields => by
    rw [ofValue, tree_eq, children, map_tree_objectField fields, Value.syntaxTree]

/-- The same for the items of a list. -/
theorem map_tree_ofValue : ∀ vs : List Value, (vs.map ofValue).map tree = Value.syntaxTrees vs
  | [] => rfl
  | v :: vs => by
    rw [List.map_cons, List.map_cons, tree_ofValue v, map_tree_ofValue vs, Value.syntaxTrees]

/-- The same for the fields of an object. -/
theorem map_tree_objectField : ∀ fs : List ObjectField,
    (fs.map objectField).map tree = ObjectField.syntaxTrees fs
  | [] => rfl
  | f :: fs => by
    rw [List.map_cons, List.map_cons, tree_objectField f, map_tree_objectField fs,
      ObjectField.syntaxTrees]

/-- The same for a single field of an object. -/
theorem tree_objectField : ∀ f : ObjectField, (objectField f).tree = f.syntaxTree
  | ⟨name, value⟩ => by
    rw [tree_eq, children, List.map_singleton, tree_ofValue value, ObjectField.syntaxTree]

end

/-- Each layer of a written type is a node. -/
theorem tree_ofType (t : TypeExpr) : (ofType t).tree = t.syntaxTree := by
  induction t with
  | named name => simp [ofType, tree_eq, children, TypeExpr.syntaxTree]
  | list item ih => rw [ofType, tree_eq, children, List.map_singleton, ih, TypeExpr.syntaxTree]
  | nonNull inner ih => rw [ofType, tree_eq, children, List.map_singleton, ih, TypeExpr.syntaxTree]

/-- A type condition is a node without children. -/
theorem tree_namedType (name : String) : (namedType name).tree = typeConditionTree name := by
  rw [tree_eq, children, List.map_nil, typeConditionTree]

/-- Below an argument is its value. -/
theorem tree_argument (a : Argument) : (argument a).tree = a.syntaxTree := by
  rw [tree_eq, children, List.map_singleton, tree_ofValue, Argument.syntaxTree]

/-- Below a directive are its arguments. -/
theorem tree_directive (d : Directive) : (directive d).tree = d.syntaxTree := by
  rw [tree_eq, children, map_tree tree_argument, Directive.syntaxTree]

/-- Below a fragment spread are its directives. -/
theorem tree_fragmentSpread (s : FragmentSpread) : (fragmentSpread s).tree = s.syntaxTree := by
  rw [tree_eq, children, map_tree tree_directive, FragmentSpread.syntaxTree]

mutual

/-- The selection set of a field is in its tree just if it selects something. -/
theorem tree_field : ∀ f : Field, (field f).tree = f.syntaxTree
  | ⟨position, aliasName, name, arguments, directives, ⟨opening, closing, []⟩⟩ => by
    rw [tree_eq, children, if_pos rfl, List.append_nil, List.map_append, map_tree tree_argument,
      map_tree tree_directive, Field.syntaxTree]
  | ⟨position, aliasName, name, arguments, directives, ⟨opening, closing, item :: items⟩⟩ => by
    -- the recursion goes through the items, since the set as a whole is rebuilt here
    have hset : (selectionSet ⟨opening, closing, item :: items⟩).tree =
        .mk (.selectionSet ⟨opening, closing, item :: items⟩)
          (item.syntaxTree :: Selection.syntaxTrees items) := by
      rw [tree_eq, children, List.map_cons, List.map_cons, tree_ofSelection item,
        map_tree_ofSelection items]
    rw [tree_eq, children, if_neg (List.cons_ne_nil _ _), List.map_append, List.map_append,
      map_tree tree_argument, map_tree tree_directive, List.map_singleton, hset, Field.syntaxTree]

/-- Below a selection set are its items. -/
theorem tree_selectionSet : ∀ s : SelectionSet, (selectionSet s).tree = s.syntaxTree
  | ⟨opening, closing, items⟩ => by
    rw [tree_eq, children, map_tree_ofSelection items, SelectionSet.syntaxTree]

/-- The trees of the items of a selection set are their syntax trees. -/
theorem map_tree_ofSelection : ∀ items : List Selection,
    (items.map ofSelection).map tree = Selection.syntaxTrees items
  | [] => rfl
  | item :: items => by
    rw [List.map_cons, List.map_cons, tree_ofSelection item, map_tree_ofSelection items,
      Selection.syntaxTrees]

/-- A selection is a field, a spread or an inline fragment, with the tree of that. -/
theorem tree_ofSelection : ∀ item : Selection, (ofSelection item).tree = item.syntaxTree
  | .field f => by rw [ofSelection, tree_field f, Selection.syntaxTree]
  | .spread s => by rw [ofSelection, tree_fragmentSpread, Selection.syntaxTree]
  | .inline f => by rw [ofSelection, tree_inlineFragment f, Selection.syntaxTree]

/-- Below an inline fragment are its type condition, its directives and its selection set. -/
theorem tree_inlineFragment : ∀ f : InlineFragment, (inlineFragment f).tree = f.syntaxTree
  | ⟨position, typeCondition, directives, set⟩ => by
    rw [tree_eq, children, List.map_append, List.map_append, map_tree tree_namedType,
      map_tree tree_directive, List.map_singleton, tree_selectionSet set, InlineFragment.syntaxTree]

end

/-- Below the definition of a variable are the variable, its type and its default value. -/
theorem tree_variableDefinition (d : VariableDefinition) :
    (variableDefinition d).tree = d.syntaxTree := by
  have hvariable : (Node.variable d.name).tree = .mk (.variable d.name) [] := by
    rw [tree_eq, children, List.map_nil]
  rw [tree_eq, children, List.map_append, map_tree tree_ofValue, List.map_cons, List.map_singleton,
    hvariable, tree_ofType, VariableDefinition.syntaxTree]
  rfl

/-- A definition has all its parts below it, in the order in which they are written. -/
theorem tree_ofDefinition (d : Definition) : (ofDefinition d).tree = d.syntaxTree := by
  cases d with
  | operation d =>
    rw [ofDefinition, tree_eq, children, List.map_append, List.map_append,
      map_tree tree_variableDefinition, map_tree tree_directive, List.map_singleton,
      tree_selectionSet, Definition.syntaxTree, OperationDefinition.syntaxTree]
  | fragment d =>
    rw [ofDefinition, tree_eq, children, List.map_append, List.map_cons, map_tree tree_directive,
      List.map_singleton, tree_namedType, tree_selectionSet, Definition.syntaxTree,
      FragmentDefinition.syntaxTree]

/-- The walk of a document goes through its syntax tree. -/
theorem tree_document (d : Document) : (document d).tree = d.syntaxTree := by
  rw [tree_eq, children, map_tree tree_ofDefinition, Document.syntaxTree]

end Node

end GraphQLCheck
