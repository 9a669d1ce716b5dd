import GraphQLCheck.Validation.Rule

/-!
# Fields on the correct type

A field can only be selected on a type that defines it. Fields whose parent type is not known are
left alone.
-/

namespace GraphQLCheck

namespace Rules

/-- The message for a field that its parent type does not define. -/
def undefinedFieldMessage (field type : String) : String :=
  s!"Cannot query field \"{field}\" on \"{type}\"."

/-- Fields must be defined by the type they are selected on. -/
def fieldsOnCorrectType : Rule :=
  .ofCheck "FieldsOnCorrectType" fun ctx n =>
    match n with
    | .field f =>
      match ctx.types.parentType?, ctx.types.field? with
      | some parent, none => [.ofNodes (undefinedFieldMessage f.name parent.name) [n]]
      | _, _ => []
    | _ => []

end Rules

end GraphQLCheck
