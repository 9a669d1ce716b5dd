import GraphQLCheck.Proofs.Rules.UnknownNames
import GraphQLCheck.Proofs.Schema.ResolvedTypes
import GraphQLCheck.Proofs.Traversal.WellKinded
import GraphQLCheck.Validation.Rules.VariablesAreInputTypes

/-!
# How variable definitions are triaged

Three parts of a validation resolve the type of a variable: the types in effect keep it if it is an
input type, the rule on known type names looks up the name at its core, and the rule on variables of
input types reports it if it is defined, but no input type. `VariableDefinition.Triaged` has a
constructor for each of the three things that may come of this.

Main statement: each definition of a variable is triaged, so that exactly one of the three parts has
something to show for it (`variables_triaged`).
-/

namespace GraphQLCheck

open Rules

namespace VariableDefinition

variable (s : Schema) (v : VariableDefinition)

/-- The error for the type at the core of a variable's type, if it is not defined. -/
def unknownTypeErrors : List ValidationError := (v.writtenType.unknownTypeError? s).toList

/-- The error for the type of a variable, if the type at its core is defined, but no input type. -/
def nonInputTypeErrors : List ValidationError :=
  match s.type? v.type.coreName with
  | some type =>
    if type.isInput then []
    else [⟨nonInputTypeMessage v.name v.type.text, [.ofType v.type], [v.position]⟩]
  | none => []

/-- What may come of the definition of a variable: the input type that is in effect inside it, the
errors of the rule on known type names, and those of the rule on variables of input types. -/
inductive Triaged : Option TypeRef → List ValidationError → List ValidationError → Prop where
  /-- The type is in effect, with its list and non-null marks, if there is an input type at its
  core. -/
  | inEffect {type : NamedType} (htype : s.type? v.type.coreName = some type)
      (hinput : type.isInput = true) : Triaged (some (.ofExprAs type true v.type)) [] []
  /-- The name at the core of the type is reported if it is not defined. -/
  | unknown (htype : s.type? v.type.coreName = none) :
      Triaged none
        [⟨unknownTypeMessage v.type.coreName, [.namedType v.type.coreName], [v.position]⟩] []
  /-- The whole type is reported if what is at its core is no input type. -/
  | nonInput {type : NamedType} (htype : s.type? v.type.coreName = some type)
      (hinput : type.isInput = false) :
      Triaged none []
        [⟨nonInputTypeMessage v.name v.type.text, [.ofType v.type], [v.position]⟩]

variable {s v}

/-- The input type that comes into effect in the definition of a variable. -/
theorem inputType?_enter (t : TypeState) :
    (t.enter s (.variableDefinition v)).inputType? =
      ((s.type? v.type.coreName).filter NamedType.isInput).map (.ofExprAs · true v.type) := by
  show (s.typeOfExpr? v.type).filter TypeRef.isInput = _
  rw [s.typeOfExpr?_eq_map]
  cases s.type? v.type.coreName with
  | none => rfl
  | some type =>
    simp only [Option.map_some, Option.filter_some, TypeRef.isInput, TypeRef.core_ofExprAs]
    split <;> rfl

/-- The definition of a variable is triaged by the type at the core of its type. -/
theorem triaged (t : TypeState) :
    v.Triaged s (t.enter s (.variableDefinition v)).inputType? (v.unknownTypeErrors s)
      (v.nonInputTypeErrors s) := by
  rw [inputType?_enter, unknownTypeErrors, writtenType, WrittenName.unknownTypeError?,
    nonInputTypeErrors]
  cases htype : s.type? v.type.coreName with
  | none => exact .unknown htype
  | some type =>
    cases hinput : type.isInput with
    | true => simpa [Option.filter_some, hinput] using Triaged.inEffect htype hinput
    | false => simpa [Option.filter_some, hinput] using Triaged.nonInput htype hinput

end VariableDefinition

namespace Definition

/-- The variables of a definition. A fragment has none. -/
def variableDefinitions : Definition → List VariableDefinition
  | .operation d => d.variableDefinitions
  | .fragment _ => []

/-- The names that are written in a definition outside its variables. -/
def namesAfterVariables : Definition → List WrittenName
  | .operation d => d.selectionSet.writtenNames
  | .fragment d => .type d.typeCondition d.position :: d.selectionSet.writtenNames

/-- The types of the variables are written first in a definition. -/
theorem writtenNames_eq_append (d : Definition) :
    d.writtenNames =
      d.variableDefinitions.map VariableDefinition.writtenType ++ d.namesAfterVariables := by
  cases d <;> rfl

end Definition

namespace Rules.VariablesAreInputTypes

variable {s : Schema}

/-- What the rule finds at a node by itself. -/
def finds (s : Schema) (_chain : List Node) (n : Node) : List ValidationError :=
  match n with
  | .variableDefinition d =>
    match s.typeOfExpr? d.type with
    | some type =>
      if type.isInput then []
      else [.ofNodes (nonInputTypeMessage d.name d.type.text) [.ofType d.type]]
    | none => []
  | _ => []

/-- The rule remembers nothing. -/
theorem visitor_local (s : Schema) (doc : Document) :
    variablesAreInputTypes.visitor.Local s doc (fun _ => ()) (finds s) :=
  Visitor.local_ofCheck s doc _

/-- Nothing is found in inner parts. -/
theorem flatMap_foundBelow_of_isInner {ns : List Node} (hns : ∀ n ∈ ns, n.isInner = true)
    (chain : List Node) : ns.flatMap (foundBelow (finds s) chain) = [] := by
  refine flatMap_foundBelow_eq_nil (fun _ _ => Node.isInner_of_mem_children) ?_ hns chain
  intro n hn chain
  cases n with
  | variableDefinition _ => exact nomatch hn
  | _ => rfl

/-- What is found at the definition of a variable and in it is the error for its type. -/
theorem foundBelow_variableDefinition (chain : List Node) (v : VariableDefinition) :
    foundBelow (finds s) chain (.variableDefinition v) = v.nonInputTypeErrors s := by
  have hchildren : (Node.variableDefinition v).children.flatMap
      (foundBelow (finds s) (.variableDefinition v :: chain)) = [] :=
    flatMap_foundBelow_of_isInner (fun c hc =>
      Node.isInner_of_isInput (Node.isInput_of_mem_variableDefinition hc)) _
  rw [foundBelow_of_children hchildren, finds, s.typeOfExpr?_eq_map,
    VariableDefinition.nonInputTypeErrors]
  cases s.type? v.type.coreName with
  | none => rfl
  | some type =>
    simp only [Option.map_some, TypeRef.isInput, TypeRef.core_ofExprAs]
    split
    · rfl
    · -- a type has no place, so that the error is at the definition
      cases v.type <;> rfl

/-- What is found in a definition are the errors for the types of its variables. -/
theorem foundBelow_definition (chain : List Node) (d : Definition) :
    foundBelow (finds s) chain (.ofDefinition d) =
      d.variableDefinitions.flatMap (VariableDefinition.nonInputTypeErrors s) := by
  cases d with
  | operation d =>
    have hbody : (d.directives.map Node.directive ++ [Node.selectionSet d.selectionSet]).flatMap
        (foundBelow (finds s) (.operationDefinition d :: chain)) = [] :=
      flatMap_foundBelow_of_isInner (fun _ => Node.isInner_of_mem_body) _
    rw [Node.ofDefinition, foundBelow_of_nil rfl, Node.children, List.append_assoc,
      List.flatMap_append, hbody, List.append_nil, List.flatMap_map]
    exact List.flatMap_congr fun v _ => foundBelow_variableDefinition _ v
  | fragment d =>
    rw [Node.ofDefinition, foundBelow_of_nil rfl]
    exact flatMap_foundBelow_of_isInner
      (fun c => Node.isInner_of_mem_definition (n := .fragmentDefinition d) rfl) _

end Rules.VariablesAreInputTypes

/-- The rule on variables of input types finds the errors for the types of the variables. -/
theorem variablesAreInputTypes_errors_eq (s : Schema) (doc : Document) :
    s.validateWithRules doc [variablesAreInputTypes] = doc.definitions.flatMap fun d =>
      d.variableDefinitions.flatMap (VariableDefinition.nonInputTypeErrors s) := by
  have hlocal := Rules.VariablesAreInputTypes.visitor_local s doc
  rw [Rule.errors_eq_foundBelow hlocal rfl, foundBelow_of_nil rfl, Node.children,
    List.flatMap_map]
  exact List.flatMap_congr fun d _ => Rules.VariablesAreInputTypes.foundBelow_definition _ d

/-- The rule on known type names finds the errors for the types of the variables of each definition,
and then those for the type conditions in it. -/
theorem knownTypeNames_errors_eq_flatMap (s : Schema) (doc : Document) :
    s.validateWithRules doc [knownTypeNames] = doc.definitions.flatMap fun d =>
      d.variableDefinitions.flatMap (VariableDefinition.unknownTypeErrors s) ++
        d.namesAfterVariables.filterMap (·.unknownTypeError? s) := by
  rw [knownTypeNames_errors_eq, Document.writtenNames, List.filterMap_flatMap]
  refine List.flatMap_congr fun d _ => ?_
  rw [d.writtenNames_eq_append, List.filterMap_append, List.filterMap_map,
    List.filterMap_eq_flatMap_toList]
  rfl

/-- Each definition of a variable of a document is triaged without gap or overlap: in every state to
which a walk comes inside the definition, either its type is in effect as an input type, or one of
the two rules reports one error for it. What the rules report is put together from what they report
for the definitions, and, in the case of type names, for type conditions. -/
theorem variables_triaged (s : Schema) (doc : Document) :
    (s.validateWithRules doc [knownTypeNames] = doc.definitions.flatMap fun d =>
      d.variableDefinitions.flatMap (VariableDefinition.unknownTypeErrors s) ++
        d.namesAfterVariables.filterMap (·.unknownTypeError? s)) ∧
    (s.validateWithRules doc [variablesAreInputTypes] = doc.definitions.flatMap fun d =>
      d.variableDefinitions.flatMap (VariableDefinition.nonInputTypeErrors s)) ∧
    ∀ d ∈ doc.definitions, ∀ v ∈ d.variableDefinitions,
      (∃ t, TypeState.Reached s doc [.variableDefinition v, .ofDefinition d, .document doc] t) ∧
      ∀ chain t, TypeState.Reached s doc (.variableDefinition v :: chain) t →
        v.Triaged s t.inputType? (v.unknownTypeErrors s) (v.nonInputTypeErrors s) := by
  refine ⟨knownTypeNames_errors_eq_flatMap s doc, variablesAreInputTypes_errors_eq s doc,
    fun d hd v hv => ⟨?_, fun chain t ht => ?_⟩⟩
  · have hdefinition : Node.ofDefinition d ∈ (Node.document doc).children :=
      List.mem_map.2 ⟨d, hd, rfl⟩
    have hvariable : Node.variableDefinition v ∈ (Node.ofDefinition d).children := by
      cases d with
      | operation d =>
        exact List.mem_append_left _ (List.mem_append_left _ (List.mem_map.2 ⟨v, hv, rfl⟩))
      | fragment d => exact absurd hv List.not_mem_nil
    have hway := ((Way.step .here .document).step (.child hdefinition)).step (.child hvariable)
    exact ⟨_, TypeState.reached_of_way hway⟩
  · obtain ⟨-, rfl⟩ := ht.eq_typesAlong
    exact VariableDefinition.triaged _

namespace ThreeVariables

/-- A schema with a scalar and an object. -/
def schema : Schema where
  types := .ofList
    [("Int", .builtIn .int), ("Query", .object ⟨"Query", .builtIn, none, [], .ofList []⟩)]
  directives := .ofList []
  query := ⟨"Query", .builtIn⟩
  mutation := none
  subscription := none

/-- A variable of the type `[Int!]!`. -/
def listed : VariableDefinition :=
  ⟨.start, "listed", .nonNull (.list (.nonNull (.named "Int"))), none⟩

/-- A variable of the type `[Missing]`. -/
def missing : VariableDefinition := ⟨.start, "missing", .list (.named "Missing"), none⟩

/-- A variable of the type `[Query!]`. -/
def object : VariableDefinition := ⟨.start, "object", .list (.nonNull (.named "Query")), none⟩

/-- An operation with these variables. -/
def operation : Definition :=
  .operation ⟨.start, .query, none, [listed, missing, object], [], ⟨.start, .start, []⟩⟩

/-- A document with this operation. -/
def document : Document := ⟨[operation]⟩

end ThreeVariables

open ThreeVariables in
/-- Of a list of integers, a list of something undefined and a list of objects, the first is in
effect, the second is reported by its core, and the third as a whole. -/
theorem variables_triaged_three :
    let inside v t := TypeState.Reached schema document
      [.variableDefinition v, .ofDefinition operation, .document document] t
    (∃ t, inside listed t ∧ listed.Triaged schema t.inputType? [] []) ∧
    (∃ t, inside missing t ∧ missing.Triaged schema t.inputType?
      [⟨unknownTypeMessage "Missing", [.namedType "Missing"], [.start]⟩] []) ∧
    ∃ t, inside object t ∧ object.Triaged schema t.inputType? []
      [⟨nonInputTypeMessage "object" "[Query!]", [.ofType object.type], [.start]⟩] := by
  intro inside
  obtain ⟨-, -, htriaged⟩ := variables_triaged schema document
  have hvariable (v : VariableDefinition) (hv : v ∈ operation.variableDefinitions) :
      ∃ t, inside v t ∧ v.Triaged schema t.inputType? (v.unknownTypeErrors schema)
        (v.nonInputTypeErrors schema) := by
    obtain ⟨⟨t, ht⟩, hall⟩ := htriaged operation (List.mem_singleton.2 rfl) v hv
    exact ⟨t, ht, hall _ t ht⟩
  exact ⟨hvariable listed (.head _), hvariable missing (.tail _ (.head _)),
    hvariable object (.tail _ (.tail _ (.head _)))⟩

end GraphQLCheck
