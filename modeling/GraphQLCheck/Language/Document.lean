import GraphQLCheck.Text.Position
import GraphQLCheck.Language.Value
import GraphQLCheck.Language.TypeExpr

/-!
# Executable documents

The tree of an executable document: operations and fragment definitions with their selections,
arguments and directives. Positions are those of the first character that belongs to a node, with
the exceptions that the comments name.
-/

namespace GraphQLCheck

/-- The three kinds of operation. -/
inductive OperationKind where
  | query
  | mutation
  | subscription
deriving DecidableEq, Repr, Inhabited

namespace OperationKind

/-- The keyword of the kind. -/
def name : OperationKind → String
  | query => "query"
  | mutation => "mutation"
  | subscription => "subscription"

/-- The name a root type has when the schema does not declare another one. -/
def defaultTypeName : OperationKind → String
  | query => "Query"
  | mutation => "Mutation"
  | subscription => "Subscription"

end OperationKind

/-- An argument given to a field or a directive. -/
structure Argument where
  name : String
  value : Value

/-- A directive given in an executable document, located at its `@`. -/
structure Directive where
  position : Position
  name : String
  arguments : List Argument

/-- A spread of a named fragment, located at the name. -/
structure FragmentSpread where
  position : Position
  name : String
  directives : List Directive

mutual

/-- A selected field, located at its alias if it has one and else at its name. A field that
selects nothing further has a selection set without items. -/
structure Field where
  position : Position
  aliasName : Option String
  name : String
  arguments : List Argument
  directives : List Directive
  selectionSet : SelectionSet

/-- Selections between braces, with the places of the two braces. -/
structure SelectionSet where
  position : Position
  closing : Position
  items : List Selection

/-- One thing selected. -/
inductive Selection where
  | field (f : Field)
  | spread (s : FragmentSpread)
  | inline (f : InlineFragment)

/-- A fragment written where it is used, located after its dots. -/
structure InlineFragment where
  position : Position
  typeCondition : Option String
  directives : List Directive
  selectionSet : SelectionSet

end

/-- The declaration of a variable, located at its dollar sign. -/
structure VariableDefinition where
  position : Position
  name : String
  type : TypeExpr
  defaultValue : Option Value

/-- An operation. One that is written as a selection set alone is a query without a name, located
at its opening brace. -/
structure OperationDefinition where
  position : Position
  kind : OperationKind
  name : Option String
  variableDefinitions : List VariableDefinition
  directives : List Directive
  selectionSet : SelectionSet

/-- A named fragment. -/
structure FragmentDefinition where
  position : Position
  name : String
  typeCondition : String
  directives : List Directive
  selectionSet : SelectionSet

/-- A definition of an executable document. -/
inductive Definition where
  | operation (d : OperationDefinition)
  | fragment (d : FragmentDefinition)

/-- An executable document. -/
structure Document where
  definitions : List Definition

namespace Document

/-- The fragments a document defines, in written order. -/
def fragments (doc : Document) : List FragmentDefinition :=
  doc.definitions.filterMap fun
    | .fragment d => some d
    | .operation _ => none

/-- The fragment a name stands for: of several definitions of one name, the last. -/
def fragment? (doc : Document) (name : String) : Option FragmentDefinition :=
  doc.fragments.reverse.find? (·.name = name)

end Document

end GraphQLCheck
