import GraphQLCheck.Validation.Traversal
import GraphQLCheck.Validation.Rules.KnownTypeNames
import GraphQLCheck.Validation.Rules.VariablesAreInputTypes
import GraphQLCheck.Validation.Rules.FieldsOnCorrectType
import GraphQLCheck.Validation.Rules.KnownFragmentNames
import GraphQLCheck.Validation.Rules.NoUndefinedVariables
import GraphQLCheck.Validation.Rules.KnownArgumentNames
import GraphQLCheck.Validation.Rules.UniqueArgumentNames

/-!
# Validation

`validate` lists everything that the specified rules find wrong with a document. Every rule has a
walk over the document of its own, one after the other. All memories are set up before the first
walk, and a walk begins with the types in effect that the walk before it has left behind.
-/

namespace GraphQLCheck

/-- What the walk of a rule has found. -/
structure Outcome where
  rule : String
  errors : List ValidationError
  notes : List String

/-- A rule with the memory it begins its walk with. -/
structure StartedRule where
  rule : Rule
  memory : rule.Memory

namespace Schema

/-- Walks over a document for one rule after the other. -/
def runFrom (s : Schema) (doc : Document) (types : TypeState) : List StartedRule → List Outcome
  | [] => []
  | ⟨rule, memory⟩ :: rest =>
    let p := visit rule.visitor s doc [] [] true (.document doc) ⟨types, memory, []⟩
    ⟨rule.name, p.errors, rule.notes p.memory⟩ :: s.runFrom doc p.types rest

/-- Walks over a document for every rule of a list. -/
def runRules (s : Schema) (doc : Document) (rules : List Rule) : List Outcome :=
  let ctx : Context := ⟨s, doc, .empty, [], []⟩
  s.runFrom doc .empty (rules.map fun rule => ⟨rule, rule.start ctx⟩)

/-- What the rules of a list find wrong with a document, rule by rule. -/
def validateWithRules (s : Schema) (doc : Document) (rules : List Rule) : List ValidationError :=
  (s.runRules doc rules).flatMap Outcome.errors

end Schema

/-- The rules by which documents are validated, in order. -/
def specifiedRules : List Rule :=
  [Rules.knownTypeNames, Rules.variablesAreInputTypes, Rules.fieldsOnCorrectType,
    Rules.knownFragmentNames, Rules.noUndefinedVariables, Rules.knownArgumentNames,
    Rules.uniqueArgumentNames]

/-- What the specified rules find wrong with a document. -/
def Schema.validate (s : Schema) (doc : Document) : List ValidationError :=
  s.validateWithRules doc specifiedRules

end GraphQLCheck
