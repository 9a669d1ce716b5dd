import GraphQLCheck.Number.Double

/-!
# Values

The input values that executable documents and type system documents write: literals, variables,
lists and objects. The fields of an object are sorted by name, and no name occurs twice.
-/

namespace GraphQLCheck

mutual

/-- An input value. -/
inductive Value where
  | variable (name : String)
  | int (n : Int)
  | float (x : Double)
  | string (s : String)
  | boolean (b : Bool)
  | null
  | enum (name : String)
  | list (items : List Value)
  | object (fields : List ObjectField)

/-- A field of an object value. -/
structure ObjectField where
  name : String
  value : Value

end

instance : Inhabited Value := ⟨.null⟩

/-- Puts a field at its place in a list sorted by name, replacing a field of that name. -/
def ObjectField.insertSorted (f : ObjectField) : List ObjectField → List ObjectField
  | [] => [f]
  | g :: rest =>
    if f.name < g.name then f :: g :: rest
    else if f.name = g.name then f :: rest
    else g :: insertSorted f rest

/-- The object with the fields as written: sorted by name, the last value of a name counting. -/
def Value.ofFields (fields : List ObjectField) : Value :=
  .object (fields.foldl (fun sorted f => f.insertSorted sorted) [])

mutual

/-- Equality of values, where floats are compared as numbers. -/
def Value.same : Value → Value → Bool
  | .variable a, .variable b => a == b
  | .int a, .int b => a == b
  | .float a, .float b => a.same b
  | .string a, .string b => a == b
  | .boolean a, .boolean b => a == b
  | .null, .null => true
  | .enum a, .enum b => a == b
  | .list as, .list bs => Value.sameItems as bs
  | .object as, .object bs => Value.sameFields as bs
  | _, _ => false

/-- Equality of the items of two lists. -/
def Value.sameItems : List Value → List Value → Bool
  | [], [] => true
  | a :: as, b :: bs => a.same b && Value.sameItems as bs
  | _, _ => false

/-- Equality of the fields of two objects. -/
def Value.sameFields : List ObjectField → List ObjectField → Bool
  | [], [] => true
  | a :: as, b :: bs => a.same b && Value.sameFields as bs
  | _, _ => false

/-- Equality of two fields, by name and by value. -/
def ObjectField.same : ObjectField → ObjectField → Bool
  | ⟨name, value⟩, ⟨name', value'⟩ => name == name' && value.same value'

end

end GraphQLCheck
