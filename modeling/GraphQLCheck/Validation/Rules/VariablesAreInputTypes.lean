import GraphQLCheck.Validation.Rule

/-!
# Variables are of input types

Variables can only be declared with scalars, enums and input objects, and with lists and non-null
types of these. Types that are not defined are left to the rule on known type names.
-/

namespace GraphQLCheck

namespace Rules

/-- The message for a variable whose type is no input type. -/
def nonInputTypeMessage (variableName type : String) : String :=
  s!"Variable \"${variableName}\" cannot be non-input type \"{type}\"."

/-- Variables must be declared with input types. -/
def variablesAreInputTypes : Rule :=
  .ofCheck "VariablesAreInputTypes" fun ctx n =>
    match n with
    | .variableDefinition d =>
      match ctx.schema.typeOfExpr? d.type with
      | some type =>
        if type.isInput then []
        else [.ofNodes (nonInputTypeMessage d.name d.type.text) [.ofType d.type]]
      | none => []
    | _ => []

end Rules

end GraphQLCheck
