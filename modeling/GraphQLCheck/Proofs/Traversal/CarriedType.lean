import GraphQLCheck.Proofs.Document.Occurrences
import GraphQLCheck.Proofs.Schema.IntrospectionTypes
import GraphQLCheck.Proofs.Traversal.TypesInEffect

/-!
# One type in place of the stacks

To tell on which type a field is selected, no stacks are needed: it is enough to carry one type down
the tree, as `Schema.typeInside` says. `Carries` relates the carried type to the types in effect.
They need not be the same everywhere, since it is only in a selection set that types without
selections are sorted out.

Main statement: outside the input, entering a node keeps the two related (`Carries.inside`), and so
they are related at every node to which the type is carried from the document (`CarriesTo.child`).
-/

namespace GraphQLCheck

namespace Schema

variable (s : Schema)

/-- The named type of a field that is selected on a type, as far as the two are known. -/
def fieldType? (parent : Option NamedType) (name : String) : Option NamedType :=
  (parent.bind (s.field? · name)).bind fun d => s.type? d.type.core.name

/-- The type that is carried on to the children of a node, if `type` is carried to the node. In a
selection set it is the type whose fields are selected. -/
def typeInside (type : Option NamedType) : Node → Option NamedType
  | .operationDefinition d => s.rootType? d.kind
  | .fragmentDefinition d => (s.type? d.typeCondition).filter NamedType.isOutput
  | .inlineFragment f =>
    match f.typeCondition with
    | some name => s.type? name
    | none => type
  | .selectionSet _ => type.filter NamedType.isComposite
  | .field f => s.fieldType? type f.name
  | _ => type

/-- The named type of what an annotated type resolves to is the one at its core. -/
theorem map_core_resolve? (type : AnnotatedType) :
    (s.resolve? type).map TypeRef.core = s.type? type.core.name := by
  cases h : s.resolve? type with
  | some r => exact (type?_core_of_resolve? h).symm
  | none =>
    cases htype : s.type? type.core.name with
    | none => rfl
    | some t =>
      obtain ⟨r, hr, -⟩ := exists_resolve? htype
      exact nomatch h.symm.trans hr

end Schema

namespace Node

/-- A node and everything below it, in the order of a depth-first walk, each part with the type that
is carried to it if `type` is carried to the node. -/
def typedSubtree (s : Schema) (type : Option NamedType) (n : Node) :
    List (Option NamedType × Node) :=
  (type, n) :: n.children.attach.flatMap fun c => typedSubtree s (s.typeInside type n) c.1
termination_by sizeOf n
decreasing_by exact sizeOf_lt_of_mem_children c.2

/-- The typed subtree of a node is the node and the typed subtrees of its children. -/
theorem typedSubtree_eq (s : Schema) (type : Option NamedType) (n : Node) :
    n.typedSubtree s type =
      (type, n) :: n.children.flatMap (typedSubtree s (s.typeInside type n)) := by
  conv => lhs; rw [typedSubtree]
  congr 1
  conv => rhs; rw [← List.attach_map_subtype_val n.children, List.flatMap_map]

/-- Without the types, the typed subtree is the subtree. -/
theorem map_snd_typedSubtree (s : Schema) (type : Option NamedType) (n : Node) :
    (n.typedSubtree s type).map Prod.snd = n.subtree := by
  have hchildren : ∀ c ∈ n.children,
      (c.typedSubtree s (s.typeInside type n)).map Prod.snd = c.subtree :=
    fun c hc => map_snd_typedSubtree s _ c
  rw [typedSubtree_eq, subtree_eq, List.map_cons, List.map_flatMap]
  exact congrArg (n :: ·) (List.flatMap_congr hchildren)
termination_by sizeOf n
decreasing_by exact sizeOf_lt_of_mem_children hc

end Node

/-- Types that have selections are output types. -/
theorem NamedType.isOutput_of_isComposite {t : NamedType} (h : t.isComposite = true) :
    t.isOutput = true := by
  cases t <;> first | rfl | exact nomatch h

/-- The named types of output types are the output types. -/
theorem TypeState.map_core_bind_outputType (type : Option NamedType) :
    (type.bind outputType).map TypeRef.core = type.filter NamedType.isOutput := by
  cases type with
  | none => rfl
  | some t =>
    rw [Option.bind_some, outputType, Option.filter_some]
    split <;> rfl

/-- Among the types that have selections, it is not seen whether only output types are let through.
-/
theorem filter_isComposite_isOutput (type : Option NamedType) :
    (type.filter NamedType.isOutput).filter NamedType.isComposite =
      type.filter NamedType.isComposite := by
  rw [Option.filter_filter]
  congr 1
  funext t
  cases h : t.isComposite with
  | false => exact Bool.and_false _
  | true => rw [NamedType.isOutput_of_isComposite h]; rfl

/-- Whether the innermost node of a chain is a selection set. -/
def inSelectionSet : List Node → Bool
  | .selectionSet _ :: _ => true
  | _ => false

/-- Whether the types in effect at the end of a chain of nodes, outside all directives, are those
that a carried type tells of. -/
structure Carries (s : Schema) (chain : List Node) (type : Option NamedType) : Prop where
  directives : (typesAlong s chain).directives = []
  namedType : (typesAlong s chain).namedType?.filter NamedType.isComposite =
    type.filter NamedType.isComposite
  parentType : inSelectionSet chain = true → (typesAlong s chain).parentType? = type

namespace Carries

variable {s : Schema} {chain : List Node} {type : Option NamedType}

/-- No type is carried to the document. -/
theorem start (s : Schema) : Carries s [] none where
  directives := rfl
  namedType := rfl
  parentType h := nomatch h

/-- The field that is found at a node on the carried type. -/
theorem field? (h : Carries s chain type) (hset : inSelectionSet chain = true) (f : Field) :
    (typesAlong s (.field f :: chain)).field? = type.bind (s.field? · f.name) := by
  rw [← h.parentType hset]
  rfl

/-- Inside a node, the types in effect are those that the type which is carried on tells of. -/
theorem inside (h : Carries s chain type) {n : Node} (hn : n.isInput = false)
    (hfield : ∀ f, n = .field f → inSelectionSet chain = true) :
    Carries s (n :: chain) (s.typeInside type n) := by
  cases n with
  | operationDefinition d =>
    refine ⟨h.directives, ?_, fun hset => nomatch hset⟩
    show (((s.rootType? d.kind).map (TypeRef.named · true)).map TypeRef.core).filter _ = _
    rw [Option.map_map]
    exact congrArg (Option.filter _) Option.map_id'
  | fragmentDefinition d =>
    refine ⟨h.directives, ?_, fun hset => nomatch hset⟩
    exact congrArg (Option.filter _) (TypeState.map_core_bind_outputType _)
  | inlineFragment f =>
    refine ⟨h.directives, ?_, fun hset => nomatch hset⟩
    obtain ⟨_, condition, _, _⟩ := f
    -- an input type is carried on, though it does not come into effect; it has no selections
    cases condition with
    | some name =>
      show (((s.type? name).bind TypeState.outputType).map TypeRef.core).filter _ = _
      rw [TypeState.map_core_bind_outputType, filter_isComposite_isOutput]
      rfl
    | none =>
      show (((typesAlong s chain).namedType?.bind TypeState.outputType).map
        TypeRef.core).filter _ = _
      rw [TypeState.map_core_bind_outputType, filter_isComposite_isOutput, h.namedType]
      rfl
  | selectionSet set =>
    refine ⟨h.directives, ?_, fun _ => h.namedType⟩
    -- what has been sorted out once stays as it is
    rw [Schema.typeInside, Option.filter_filter]
    simp only [Bool.and_self]
    exact h.namedType
  | field f =>
    refine ⟨h.directives, ?_, fun hset => nomatch hset⟩
    have hparent := h.parentType (hfield f rfl)
    -- what comes into effect is what the type of the field resolves to
    show ((((typesAlong s chain).parentType?.bind (s.field? · f.name)).bind
      (s.resolve? ·.type)).map TypeRef.core).filter _ = _
    rw [hparent, Option.map_bind]
    simp only [Function.comp_def, Schema.map_core_resolve?]
    rfl
  | document _ | fragmentSpread _ | variableDefinition _ =>
    exact ⟨h.directives, h.namedType, fun hset => nomatch hset⟩
  | _ => exact nomatch hn

end Carries

/-- Whether a type may be carried to a node at the end of a chain. Nothing is asked of input. -/
def CarriesTo (s : Schema) (chain : List Node) (type : Option NamedType) (n : Node) : Prop :=
  n.isInput = false →
    Carries s chain type ∧ ∀ f, n = .field f → inSelectionSet chain = true

/-- No type is carried to the document. -/
theorem carriesTo_document (s : Schema) (doc : Document) : CarriesTo s [] none (.document doc) :=
  fun _ => ⟨.start s, nofun⟩

/-- What is carried on from a node may be carried to its children. -/
theorem CarriesTo.child {s : Schema} {chain : List Node} {type : Option NamedType} {n c : Node}
    (h : CarriesTo s chain type n) (hc : c ∈ n.children) :
    CarriesTo s (n :: chain) (s.typeInside type n) c := by
  intro hinput
  -- there is only input below input
  have hn : n.isInput = false := by
    cases hn : n.isInput with
    | false => rfl
    | true => exact nomatch (Node.isInput_of_mem_children hn hc).symm.trans hinput
  obtain ⟨hcarries, hfield⟩ := h hn
  refine ⟨hcarries.inside hn hfield, fun f hf => ?_⟩
  obtain ⟨set, rfl⟩ := Node.exists_selectionSet_of_field_mem (hf ▸ hc)
  rfl

end GraphQLCheck
