import GraphQLCheck.Proofs.Traversal.CarriedType
import GraphQLCheck.Proofs.Traversal.LocalRules

/-!
# Which fields are undefined

The rule on fields of the correct type looks at the stacks of types in effect. What it finds can be
told without them: `Document.undefinedFieldErrors` goes over the selections by structural recursion
and carries only the type on which fields are selected.

Main statement: the rule finds just what the recursion finds (`fieldsOnCorrectType_errors_eq`).
-/

namespace GraphQLCheck

open Rules

section Pass

variable (s : Schema)

mutual

/-- The errors for a field that is selected on a type, if this is known, and for what is selected in
the field. Nothing is selected in a field that its parent type does not define. -/
def Field.undefinedFieldErrors (parent : Option NamedType) : Field → List ValidationError
  | f@⟨_, _, name, _, _, set⟩ =>
    match parent with
    | none => set.undefinedFieldErrors none
    | some type =>
      match s.field? type name with
      | none => [⟨undefinedFieldMessage name type.name, [.field f], [f.position]⟩]
      | some d => set.undefinedFieldErrors (s.type? d.type.core.name)

/-- The errors for the fields in a selection set, which are selected on the type of what the set
belongs to if this has selections. -/
def SelectionSet.undefinedFieldErrors (type : Option NamedType) :
    SelectionSet → List ValidationError
  | ⟨_, _, items⟩ => undefinedFieldErrorsIn (type.filter NamedType.isComposite) items

/-- The errors for the fields in an inline fragment, which are selected on its type condition or
else on the type around it. -/
def InlineFragment.undefinedFieldErrors (parent : Option NamedType) :
    InlineFragment → List ValidationError
  | ⟨_, some condition, _, set⟩ => set.undefinedFieldErrors (s.type? condition)
  | ⟨_, none, _, set⟩ => set.undefinedFieldErrors parent

/-- The errors for the fields in a selection. There are none in a spread. -/
def Selection.undefinedFieldErrors (parent : Option NamedType) :
    Selection → List ValidationError
  | .field f => f.undefinedFieldErrors parent
  | .spread _ => []
  | .inline f => f.undefinedFieldErrors parent

/-- The errors for the fields in some selections. -/
def undefinedFieldErrorsIn (parent : Option NamedType) : List Selection → List ValidationError
  | [] => []
  | x :: xs => x.undefinedFieldErrors parent ++ undefinedFieldErrorsIn parent xs

end

/-- The errors for the fields in a definition. -/
def Definition.undefinedFieldErrors : Definition → List ValidationError
  | .operation d => d.selectionSet.undefinedFieldErrors s (s.rootType? d.kind)
  | .fragment d =>
    d.selectionSet.undefinedFieldErrors s ((s.type? d.typeCondition).filter NamedType.isOutput)

/-- The errors for the fields in a document. -/
def Document.undefinedFieldErrors (doc : Document) : List ValidationError :=
  doc.definitions.flatMap (Definition.undefinedFieldErrors s)

/-- There are no errors for the fields in a selection set without items. -/
theorem undefinedFieldErrors_of_empty {set : SelectionSet} (h : set.items = [])
    (type : Option NamedType) : set.undefinedFieldErrors s type = [] := by
  obtain ⟨position, closing, items⟩ := set
  obtain rfl : items = [] := h
  rfl

end Pass

namespace Rules.FieldsOnCorrectType

variable {s : Schema} {chain : List Node} {parent : Option NamedType}

/-- What the rule finds at a node by itself, given the nodes around it. -/
def finds (s : Schema) (chain : List Node) (n : Node) : List ValidationError :=
  match n with
  | .field f =>
    match (typesAlong s (n :: chain)).parentType?, (typesAlong s (n :: chain)).field? with
    | some parent, none => [.ofNodes (undefinedFieldMessage f.name parent.name) [n]]
    | _, _ => []
  | _ => []

/-- The rule remembers nothing. -/
theorem visitor_local (s : Schema) (doc : Document) :
    fieldsOnCorrectType.visitor.Local s doc (fun _ => ()) (finds s) :=
  Visitor.local_ofCheck s doc _

/-- Nothing is found in the input. -/
theorem flatMap_foundBelow_of_isInput {ns : List Node} (hns : ∀ n ∈ ns, n.isInput = true)
    (chain : List Node) : ns.flatMap (foundBelow (finds s) chain) = [] := by
  refine flatMap_foundBelow_eq_nil (fun _ _ => Node.isInput_of_mem_children) ?_ hns chain
  intro n hn chain
  cases n with
  | field f => exact nomatch hn
  | _ => rfl

/-- What is found below a field, its directives and arguments included, is what is found in its
selection set. -/
private theorem flatMap_children_field {f : Field} {errors : List ValidationError}
    (hset : foundBelow (finds s) chain (.selectionSet f.selectionSet) = errors)
    (hempty : f.selectionSet.items = [] → errors = []) :
    (Node.field f).children.flatMap (foundBelow (finds s) chain) = errors := by
  have hinput : ∀ n ∈ f.arguments.map Node.argument ++ f.directives.map Node.directive,
      n.isInput = true := by
    simp [or_imp, forall_and, Node.isInput]
  rw [Node.children, List.flatMap_append, flatMap_foundBelow_of_isInput hinput, List.nil_append]
  split
  next hitems => exact (hempty hitems).symm
  next => rw [List.flatMap_singleton, hset]

/-- What is found below the directives of something and in its selection set. -/
private theorem flatMap_children_body (conditions : List String) {directives : List Directive}
    {set : SelectionSet} :
    (conditions.map Node.namedType ++ directives.map Node.directive ++
        [Node.selectionSet set]).flatMap (foundBelow (finds s) chain) =
      foundBelow (finds s) chain (.selectionSet set) := by
  have hinput : ∀ n ∈ conditions.map Node.namedType ++ directives.map Node.directive,
      n.isInput = true := by
    simp [or_imp, forall_and, Node.isInput]
  rw [List.flatMap_append, flatMap_foundBelow_of_isInput hinput, List.nil_append,
    List.flatMap_singleton]

-- the cases are those of the recursion; that the carried type is the parent type is known in
-- selection sets only, which is where the fields are
mutual

/-- Below a field that is selected on the carried type, the rule finds what the recursion finds. -/
theorem foundBelow_field : ∀ (f : Field) {chain : List Node} {parent : Option NamedType},
    Carries s chain parent → inSelectionSet chain = true →
      foundBelow (finds s) chain (.field f) = f.undefinedFieldErrors s parent
  | ⟨position, aliasName, name, arguments, directives, set⟩, chain, parent, h, hchain => by
    let f : Field := ⟨position, aliasName, name, arguments, directives, set⟩
    have hparent : (typesAlong s (.field f :: chain)).parentType? = parent := h.parentType hchain
    have hfield : (typesAlong s (.field f :: chain)).field? = parent.bind (s.field? · name) :=
      h.field? hchain f
    have hset := foundBelow_selectionSet set (h.inside (n := .field f) rfl fun _ _ => hchain)
    have hbelow (hfinds : finds s chain (.field f) = []) : foundBelow (finds s) chain (.field f) =
        set.undefinedFieldErrors s (s.fieldType? parent name) := by
      rw [foundBelow_of_nil hfinds]
      exact flatMap_children_field hset fun hitems => undefinedFieldErrors_of_empty s hitems _
    cases parent with
    | none =>
      -- on an unknown type every field is left alone
      exact hbelow (by simp only [finds, hparent])
    | some type =>
      rw [Field.undefinedFieldErrors]
      cases hd : s.field? type name with
      | none =>
        -- the error is located at the field, and nothing below the field is looked at
        have hfinds : finds s chain (.field f) =
            [.ofNodes (undefinedFieldMessage name type.name) [.field f]] := by
          simp only [finds, hparent, hfield, Option.bind_some, hd]
          rfl
        rw [foundBelow_of_ne_nil (hfinds ▸ List.cons_ne_nil _ _), hfinds]
        rfl
      | some d =>
        have htype : s.fieldType? (some type) name = s.type? d.type.core.name := by
          rw [Schema.fieldType?, Option.bind_some, hd, Option.bind_some]
        rw [htype] at hbelow
        exact hbelow (by simp only [finds, hparent, hfield, Option.bind_some, hd])

/-- Below a selection set, the rule finds what the recursion finds. -/
theorem foundBelow_selectionSet : ∀ (set : SelectionSet) {chain : List Node}
    {type : Option NamedType}, Carries s chain type →
      foundBelow (finds s) chain (.selectionSet set) = set.undefinedFieldErrors s type
  | ⟨position, closing, items⟩, chain, type, h => by
    have hinside := h.inside (n := .selectionSet ⟨position, closing, items⟩) rfl nofun
    rw [foundBelow_of_nil rfl, SelectionSet.undefinedFieldErrors]
    exact flatMap_foundBelow_selections items hinside rfl

/-- Below an inline fragment, the rule finds what the recursion finds. -/
theorem foundBelow_inlineFragment : ∀ (f : InlineFragment) {chain : List Node}
    {parent : Option NamedType}, Carries s chain parent →
      foundBelow (finds s) chain (.inlineFragment f) = f.undefinedFieldErrors s parent
  | ⟨position, condition, directives, set⟩, chain, parent, h => by
    have hinside := h.inside (n := .inlineFragment ⟨position, condition, directives, set⟩) rfl nofun
    rw [foundBelow_of_nil rfl]
    -- inside, the type condition is carried, or else what is carried to the fragment
    refine (flatMap_children_body _).trans ((foundBelow_selectionSet set hinside).trans ?_)
    cases condition <;> rfl

/-- Below a selection, the rule finds what the recursion finds. -/
theorem foundBelow_selection : ∀ (x : Selection) {chain : List Node} {parent : Option NamedType},
    Carries s chain parent → inSelectionSet chain = true →
      foundBelow (finds s) chain (.ofSelection x) = x.undefinedFieldErrors s parent
  | .field f, _, _, h, hchain => foundBelow_field f h hchain
  | .spread spread, _, _, _, _ => by
    rw [Node.ofSelection, foundBelow_of_nil rfl]
    exact flatMap_foundBelow_of_isInput (by simp [Node.children, Node.isInput]) _
  | .inline f, _, _, h, _ => foundBelow_inlineFragment f h

/-- In some selections, the rule finds what the recursion finds. -/
theorem flatMap_foundBelow_selections : ∀ (xs : List Selection) {chain : List Node}
    {parent : Option NamedType}, Carries s chain parent → inSelectionSet chain = true →
      (xs.map Node.ofSelection).flatMap (foundBelow (finds s) chain) =
        undefinedFieldErrorsIn s parent xs
  | [], _, _, _, _ => rfl
  | x :: xs, _, _, h, hchain => by
    rw [List.map_cons, List.flatMap_cons, foundBelow_selection x h hchain,
      flatMap_foundBelow_selections xs h hchain, undefinedFieldErrorsIn]

end

/-- Below a definition, the rule finds what the recursion finds. -/
theorem foundBelow_definition (h : Carries s chain parent) (d : Definition) :
    foundBelow (finds s) chain (.ofDefinition d) = d.undefinedFieldErrors s := by
  cases d with
  | operation d =>
    have hvariables : (d.variableDefinitions.map Node.variableDefinition).flatMap
        (foundBelow (finds s) (.operationDefinition d :: chain)) = [] := by
      refine List.flatMap_eq_nil_iff.2 fun n hn => ?_
      obtain ⟨v, -, rfl⟩ := List.mem_map.1 hn
      rw [foundBelow_of_nil rfl]
      exact flatMap_foundBelow_of_isInput (fun c hc => Node.isInput_of_mem_variableDefinition hc) _
    have hset := foundBelow_selectionSet d.selectionSet
      (h.inside (n := .operationDefinition d) rfl fun f hf => by cases hf)
    rw [Node.ofDefinition, foundBelow_of_nil rfl, Node.children, List.append_assoc,
      List.flatMap_append, hvariables, List.nil_append]
    exact (flatMap_children_body []).trans hset
  | fragment d =>
    have hset := foundBelow_selectionSet d.selectionSet
      (h.inside (n := .fragmentDefinition d) rfl fun f hf => by cases hf)
    rw [Node.ofDefinition, foundBelow_of_nil rfl]
    exact (flatMap_children_body [d.typeCondition]).trans hset

end Rules.FieldsOnCorrectType

/-- The rule on fields of the correct type finds what a recursion over the selections finds that
carries the parent type alone, error for error and in the same order. -/
theorem fieldsOnCorrectType_errors_eq (s : Schema) (doc : Document) :
    s.validateWithRules doc [Rules.fieldsOnCorrectType] = doc.undefinedFieldErrors s := by
  have hlocal := Rules.FieldsOnCorrectType.visitor_local s doc
  have hdocument : Carries s [.document doc] none := (Carries.start s).inside rfl nofun
  rw [Rule.errors_eq_foundBelow hlocal rfl, foundBelow_of_nil rfl, Node.children,
    List.flatMap_map, Document.undefinedFieldErrors]
  exact List.flatMap_congr fun d _ => Rules.FieldsOnCorrectType.foundBelow_definition hdocument d

end GraphQLCheck
