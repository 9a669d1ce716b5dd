import GraphQLCheck.Proofs.Document.Occurrences
import GraphQLCheck.Proofs.Schema.Sources
import GraphQLCheck.Proofs.Traversal.Paths

/-!
# A fragment means the same at every spread

Where a fragment is visited at a spread, the types in effect lie on top of those at the spread.
From the first field inside the fragment on, nothing that is looked at lies that deep:
`TypeState.Over` says how the state inside the fragment is made up of the state that the fragment
leads to by itself and of what was there before, and `TypeState.Over.enter` that this stays so from
node to node.

Main statement: at a field of a fragment and everywhere below it, a visitor sees the same in effect
whatever spreads have led there, namely what it sees when the fragment is walked over by itself
(`seesSame_standalone`).
-/

namespace GraphQLCheck

namespace Node

/-- Whether selections may stand below a node: it is no input, and does not define a variable. -/
def spansSelections : Node → Bool
  | document _ | field _ | fragmentDefinition _ | fragmentSpread _ | inlineFragment _
  | operationDefinition _ | selectionSet _ => true
  | _ => false

/-- No selections stand below input. -/
theorem spansSelections_of_isInput {n : Node} (h : n.isInput = true) :
    n.spansSelections = false := by
  cases n <;> first | rfl | exact nomatch h

/-- What stands above selections is not below input or in the definition of a variable. -/
theorem spansSelections_of_mem_children {n c : Node} (hc : c ∈ n.children)
    (hspans : c.spansSelections = true) : n.spansSelections = true := by
  have hinput : c.isInput = false := Bool.eq_false_iff.2 fun hinput =>
    absurd (spansSelections_of_isInput hinput) (by simp [hspans])
  cases n with
  | document _ | field _ | fragmentDefinition _ | fragmentSpread _ | inlineFragment _
  | operationDefinition _ | selectionSet _ => rfl
  | variableDefinition d => exact absurd (isInput_of_mem_variableDefinition hc) (by simp [hinput])
  | _ => exact absurd (isInput_of_mem_children rfl hc) (by simp [hinput])

end Node

namespace TypeState

/-- Whether the same is seen to be in effect in two states. -/
structure SeesSame (t u : TypeState) : Prop where
  type : t.type? = u.type?
  parentType : t.parentType? = u.parentType?
  field : t.field? = u.field?
  argument : t.argument? = u.argument?
  directive : t.directive? = u.directive?
  inputType : t.inputType? = u.inputType?

/-- Whether a state consists of another one on top of what was in effect outside, where only types
and fields were. The state on top has a type, and a parent type for its fields. -/
structure Over (outside t u : TypeState) : Prop where
  arguments : t.arguments = u.arguments
  directives : t.directives = u.directives
  inputTypes : t.inputTypes = u.inputTypes
  fields : t.fields = u.fields ++ outside.fields
  parentTypes : t.parentTypes = u.parentTypes ++ outside.parentTypes
  types : t.types = u.types ++ outside.types
  typed : u.types ≠ []
  parented : u.fields ≠ [] → u.parentTypes ≠ []

/-- Whether a state has the entries that entering a node looks at. -/
def Provides (u : TypeState) : Node → Prop
  | .argument _ => u.directives ≠ [] ∨ u.fields ≠ []
  | .field _ => u.parentTypes ≠ []
  | _ => True

/-- Entries below those of a stack that is not empty do not change its head. -/
theorem head?_append_of_ne_nil {α : Type} {xs : List α} (ys : List α) (h : xs ≠ []) :
    (xs ++ ys).head? = xs.head? := by
  cases xs with
  | nil => exact absurd rfl h
  | cons x xs => rfl

namespace Over

variable {outside t u : TypeState}

/-- The type in effect is that of the state on top. -/
theorem type?_eq (h : outside.Over t u) : t.type? = u.type? := by
  rw [type?, h.types, head?_append_of_ne_nil _ h.typed, ← type?]

/-- The named type in effect is that of the state on top. -/
theorem namedType?_eq (h : outside.Over t u) : t.namedType? = u.namedType? := by
  rw [namedType?, h.type?_eq, ← namedType?]

/-- The parent type is that of the state on top, if there is an entry for it. -/
theorem parentType?_eq (h : outside.Over t u) (hparent : u.parentTypes ≠ []) :
    t.parentType? = u.parentType? := by
  rw [parentType?, h.parentTypes, head?_append_of_ne_nil _ hparent, ← parentType?]

/-- The field is that of the state on top, if there is an entry for it. -/
theorem field?_eq (h : outside.Over t u) (hfield : u.fields ≠ []) : t.field? = u.field? := by
  rw [field?, h.fields, head?_append_of_ne_nil _ hfield, ← field?]

/-- The input type is that of the state on top. -/
theorem inputType?_eq (h : outside.Over t u) : t.inputType? = u.inputType? := by
  rw [inputType?, h.inputTypes, ← inputType?]

/-- An argument is looked up in the state on top, if there is an entry for its directive or field.
-/
theorem argumentDef_eq (h : outside.Over t u) (hgiven : u.directives ≠ [] ∨ u.fields ≠ [])
    (name : String) : t.argumentDef name = u.argumentDef name := by
  unfold argumentDef
  rw [h.directives]
  split
  next => rfl
  next hnone =>
    -- no directive is being visited, so there is a field
    have hfield : u.fields ≠ [] := hgiven.resolve_left fun hne => hne hnone
    rw [h.field?_eq hfield]

/-- The same is seen in a state and in the one on top, if there is an entry for a field. -/
theorem seesSame (h : outside.Over t u) (hfield : u.fields ≠ []) : t.SeesSame u where
  type := h.type?_eq
  parentType := h.parentType?_eq (h.parented hfield)
  field := h.field?_eq hfield
  argument := by rw [argument?, h.arguments, ← argument?]
  directive := by rw [directive?, h.directives, ← directive?]
  inputType := h.inputType?_eq

/-- Entering a node pushes the same onto a state and onto the one on top, if what is looked at is on
top. -/
theorem enter (h : outside.Over t u) (s : Schema) {n : Node} (hn : u.Provides n) :
    outside.Over (t.enter s n) (u.enter s n) := by
  obtain ⟨harguments, hdirectives, hinputTypes, hfields, hparentTypes, htypes, htyped,
    hparented⟩ := id h
  -- a node pushes onto few of the stacks, and what it pushes is found at their tops
  cases n with
  | argument a =>
    have hargument := h.argumentDef_eq hn a.name
    refine ⟨?_, hdirectives, ?_, hfields, hparentTypes, htypes, htyped, hparented⟩ <;>
      simp only [TypeState.enter, hargument, harguments, hinputTypes]
  | directive d =>
    refine ⟨harguments, ?_, hinputTypes, hfields, hparentTypes, htypes, htyped, hparented⟩
    simp only [TypeState.enter, hdirectives]
  | field f =>
    have hparent : u.parentTypes ≠ [] := hn
    have hfield := h.parentType?_eq hparent
    refine ⟨harguments, hdirectives, hinputTypes, ?_, hparentTypes, ?_, List.cons_ne_nil _ _,
      fun _ => hparent⟩ <;>
      simp only [TypeState.enter, hfield, hfields, htypes, List.cons_append]
  | inlineFragment f =>
    have hnamed := h.namedType?_eq
    refine ⟨harguments, hdirectives, hinputTypes, hfields, hparentTypes, ?_, List.cons_ne_nil _ _,
      hparented⟩
    simp only [TypeState.enter, hnamed, htypes, List.cons_append]
  | fragmentDefinition d =>
    refine ⟨harguments, hdirectives, hinputTypes, hfields, hparentTypes, ?_, List.cons_ne_nil _ _,
      hparented⟩
    simp only [TypeState.enter, htypes, List.cons_append]
  | listValue items =>
    have hitem : t.itemType = u.itemType := by rw [itemType, h.inputType?_eq, ← itemType]
    refine ⟨harguments, hdirectives, ?_, hfields, hparentTypes, htypes, htyped, hparented⟩
    simp only [TypeState.enter, hitem, hinputTypes]
  | objectField f =>
    have hobject : t.inputObject? = u.inputObject? := by
      rw [inputObject?, h.inputType?_eq, ← inputObject?]
    refine ⟨harguments, hdirectives, ?_, hfields, hparentTypes, htypes, htyped, hparented⟩
    simp only [TypeState.enter, hobject, hinputTypes]
  | operationDefinition d =>
    refine ⟨harguments, hdirectives, hinputTypes, hfields, ?_, ?_, List.cons_ne_nil _ _,
      fun _ => List.cons_ne_nil _ _⟩ <;>
      simp only [TypeState.enter, hparentTypes, htypes, List.cons_append]
  | selectionSet set =>
    have hnamed := h.namedType?_eq
    refine ⟨harguments, hdirectives, hinputTypes, hfields, ?_, htypes, htyped,
      fun _ => List.cons_ne_nil _ _⟩
    simp only [TypeState.enter, hnamed, hparentTypes, List.cons_append]
  | variableDefinition d =>
    refine ⟨harguments, hdirectives, ?_, hfields, hparentTypes, htypes, htyped, hparented⟩
    simp only [TypeState.enter, hinputTypes]
  | _ => exact h

end Over

/-- Inside a node there are the entries that entering its children looks at. -/
theorem provides_of_mem_children (s : Schema) (u : TypeState) {n c : Node} (hc : c ∈ n.children) :
    (u.enter s n).Provides c := by
  cases c with
  | argument a =>
    rcases Node.field_or_directive_of_argument_mem hc with ⟨f, rfl⟩ | ⟨d, rfl⟩
    · exact .inr (List.cons_ne_nil _ _)
    · exact .inl (List.cons_ne_nil _ _)
  | field f =>
    obtain ⟨set, rfl⟩ := Node.exists_selectionSet_of_field_mem hc
    exact List.cons_ne_nil _ _
  | _ => trivial

/-- Entering a node takes no field away. -/
theorem fields_enter_ne_nil (s : Schema) (n : Node) {u : TypeState} (h : u.fields ≠ []) :
    (u.enter s n).fields ≠ [] := by
  cases n with
  | field f => exact List.cons_ne_nil _ _
  | _ => exact h

end TypeState

section Ways

variable {doc : Document} {inner outer : List Node} {d : FragmentDefinition}

/-- Where selections may stand, no argument, no directive and no input type is in effect. -/
theorem typesAlong_of_spansSelections (s : Schema) {chain : List Node} {n : Node}
    (hway : Way doc [] (n :: chain)) (hn : n.spansSelections = true) :
    (typesAlong s (n :: chain)).arguments = [] ∧ (typesAlong s (n :: chain)).directives = [] ∧
      (typesAlong s (n :: chain)).inputTypes = [] := by
  induction chain generalizing n with
  | nil =>
    obtain ⟨-, hfollows⟩ := hway.of_cons
    cases hfollows with
    | document => exact ⟨rfl, rfl, rfl⟩
  | cons m chain ih =>
    obtain ⟨hway, hfollows⟩ := hway.of_cons
    have hm : m.spansSelections = true := by
      cases hfollows with
      | child hc => exact Node.spansSelections_of_mem_children hc hn
      | fragment hd => rfl
    obtain ⟨harguments, hdirectives, hinputTypes⟩ := ih hway hm
    -- such a node pushes onto none of the three stacks
    rw [typesAlong_cons]
    cases n with
    | document _ | field _ | fragmentDefinition _ | fragmentSpread _ | inlineFragment _
    | operationDefinition _ | selectionSet _ => exact ⟨harguments, hdirectives, hinputTypes⟩
    | _ => exact nomatch hn

/-- A node inside a fragment is a child of the node before it. -/
theorem Way.child_of_inner {n : Node}
    (hway : Way doc [] (n :: (inner ++ .fragmentDefinition d :: outer)))
    (hn : n.isFragmentDefinition = false) :
    ∃ m rest rest', inner ++ .fragmentDefinition d :: outer = m :: rest ∧
      inner ++ [.fragmentDefinition d] = m :: rest' ∧ n ∈ m.children := by
  obtain ⟨m, rest, rest', hchain, halone⟩ : ∃ m rest rest',
      inner ++ .fragmentDefinition d :: outer = m :: rest ∧
      inner ++ [.fragmentDefinition d] = m :: rest' := by
    cases inner with
    | nil => exact ⟨_, _, _, rfl, rfl⟩
    | cons m inner => exact ⟨_, _, _, rfl, rfl⟩
  refine ⟨m, rest, rest', hchain, halone, ?_⟩
  obtain ⟨-, hfollows⟩ := hway.of_cons
  rw [hchain] at hfollows
  cases hfollows with
  | child hc => exact hc
  | fragment hd => exact nomatch hn

/-- Inside a fragment, the state consists of the one that the fragment leads to by itself on top of
what was in effect where the fragment is visited. -/
theorem over_of_way (s : Schema) (hway : Way doc [] (inner ++ .fragmentDefinition d :: outer))
    (hinner : ∀ n ∈ inner, n.isFragmentDefinition = false) :
    (typesAlong s outer).Over (typesAlong s (inner ++ .fragmentDefinition d :: outer))
      (typesAlong s (inner ++ [.fragmentDefinition d])) := by
  induction inner with
  | nil =>
    obtain ⟨harguments, hdirectives, hinputTypes⟩ := typesAlong_of_spansSelections s hway rfl
    exact
      { arguments := harguments
        directives := hdirectives
        inputTypes := hinputTypes
        fields := rfl
        parentTypes := rfl
        types := rfl
        typed := List.cons_ne_nil _ _
        parented := fun hne => absurd rfl hne }
  | cons n inner ih =>
    obtain ⟨hn, hinner⟩ := List.forall_mem_cons.1 hinner
    obtain ⟨m, rest, rest', -, halone, hc⟩ := hway.child_of_inner hn
    have hprovides : (typesAlong s (inner ++ [.fragmentDefinition d])).Provides n := by
      rw [halone]
      exact TypeState.provides_of_mem_children s _ hc
    exact (ih hway.of_cons.1 hinner).enter s hprovides

/-- Below a field there is an entry for a field. -/
theorem fields_typesAlong_ne_nil (s : Schema) {chain : List Node} {f : Field}
    (h : .field f ∈ chain) : (typesAlong s chain).fields ≠ [] := by
  induction chain with
  | nil => exact absurd h List.not_mem_nil
  | cons n chain ih =>
    rcases List.mem_cons.1 h with rfl | h
    · exact List.cons_ne_nil _ _
    · exact TypeState.fields_enter_ne_nil s n (ih h)

/-- What is reached inside a fragment is reached from its definition. -/
theorem reached_of_way {visitsSpreads : Bool}
    (hway : Way doc [] (inner ++ .fragmentDefinition d :: outer))
    (hinner : ∀ n ∈ inner, n.isFragmentDefinition = false) :
    Reached doc visitsSpreads [] [.fragmentDefinition d] (inner ++ [.fragmentDefinition d]) := by
  induction inner with
  | nil => exact .here
  | cons n inner ih =>
    obtain ⟨hn, hinner⟩ := List.forall_mem_cons.1 hinner
    obtain ⟨m, rest, rest', -, halone, hc⟩ := hway.child_of_inner hn
    have hreached := ih hway.of_cons.1 hinner
    rw [List.cons_append, halone]
    rw [halone] at hreached
    exact hreached.concat hc fun _ => hn

end Ways

/-- Whatever a visitor does, and however it is led into a fragment, at every field of the fragment
and everywhere below it the same type, parent type, field, argument, directive and input type are
in effect as on a walk over the definition of the fragment by itself, which comes to the same
place. -/
theorem seesSame_standalone {σ : Type} (v : Visitor σ) (s : Schema) (doc : Document) (memory : σ)
    {call : Call} (hcall : call ∈ v.callsOver s doc (.document doc) memory)
    {inner outer : List Node} {d : FragmentDefinition}
    (hpath : call.path = inner ++ .fragmentDefinition d :: outer)
    (hinner : ∀ n ∈ inner, n.isFragmentDefinition = false) (hfield : ∃ f, .field f ∈ inner) :
    Way doc [] call.path ∧
      (∃ alone ∈ Visitor.idle.callsOver s doc (.fragmentDefinition d) (),
        alone.path = inner ++ [.fragmentDefinition d]) ∧
      ∀ (τ : Type) (w : Visitor τ) (memory' : τ),
        ∀ alone ∈ w.callsOver s doc (.fragmentDefinition d) memory',
          alone.path = inner ++ [.fragmentDefinition d] →
            call.context.types.SeesSame alone.context.types := by
  have hat : call.context.At s doc [] call.node := at_of_mem_callsOver (.step .here .document) hcall
  have hway : Way doc [] call.path := hat.way
  have htypes : call.context.types = typesAlong s call.path := hat.types
  rw [hpath] at hway htypes
  refine ⟨hpath ▸ hway, ?_, ?_⟩
  · exact exists_call_of_reached Visitor.idle_goesOn s () (reached_of_way hway hinner)
  · intro τ w memory' alone halone hpath'
    have hat' : alone.context.At s doc [.fragmentDefinition d] alone.node :=
      at_of_mem_callsOver .here halone
    have htypes' : alone.context.types = typesAlong s alone.path := hat'.types
    rw [htypes, htypes', hpath']
    obtain ⟨f, hf⟩ := hfield
    have hentry := fields_typesAlong_ne_nil s (List.mem_append_left [.fragmentDefinition d] hf)
    exact (over_of_way s hway hinner).seesSame hentry

namespace SpreadTwice

/-- The visitor that goes on everywhere, and has fragments visited where they are spread. -/
def visitor : Visitor Unit := { Visitor.idle with visitsSpreads := true }

/-- The path of the source below. -/
def path : Path := ⟨"numbers.graphql"⟩

/-- A source that defines two fields, one of them with an argument. -/
def source : String := "type Query \x7b a: Query b(x: Int): Int \x7d"

/-- The field that the fragment selects, with its argument. -/
def field : Field := ⟨.start, none, "b", [⟨"x", .int 1⟩], [], ⟨.start, .start, []⟩⟩

/-- A fragment that selects one field. -/
def fragment : FragmentDefinition := ⟨.start, "F", "Query", [], ⟨.start, .start, [.field field]⟩⟩

/-- A selection set in which the fragment is spread. -/
def spreading (others : List Selection) : SelectionSet :=
  ⟨.start, .start, others ++ [.spread ⟨.start, "F", []⟩]⟩

/-- The field in which the fragment is spread for the first time. -/
def outerField : Field := ⟨.start, none, "a", [], [], spreading []⟩

/-- The operation that spreads the fragment in a field and beside that field. -/
def operation : OperationDefinition :=
  ⟨.start, .query, none, [], [], spreading [.field outerField]⟩

/-- A document that spreads a fragment at two places. -/
def document : Document := ⟨[.operation operation, .fragment fragment]⟩

/-- The way from the definition of the fragment to the value of the argument. -/
def inner : List Node :=
  [.intValue 1, .argument ⟨"x", .int 1⟩, .field field, .selectionSet fragment.selectionSet]

/-- The way to the spread beside the field. -/
def outer : List Node :=
  [.fragmentSpread ⟨.start, "F", []⟩, .selectionSet operation.selectionSet,
    .operationDefinition operation, .document document]

/-- The way to the spread in the field. -/
def deeperOuter : List Node :=
  [.fragmentSpread ⟨.start, "F", []⟩, .selectionSet outerField.selectionSet, .field outerField,
    .selectionSet operation.selectionSet, .operationDefinition operation, .document document]

/-- The name of the fragment stands for it. -/
private theorem fragment?_eq : document.fragment? "F" = some fragment := by
  simp [document, Document.fragment?, Document.fragments, fragment]

/-- The value is reached through every spread of the fragment. -/
private theorem reached_spread (chain : List Node) :
    Reached document true [] (.fragmentSpread ⟨.start, "F", []⟩ :: chain)
      (inner ++ .fragmentDefinition fragment :: .fragmentSpread ⟨.start, "F", []⟩ :: chain) := by
  have hset : Node.selectionSet fragment.selectionSet ∈
      (Node.fragmentDefinition fragment).children := by
    simp [Node.children]
  have hfield : Node.field field ∈ (Node.selectionSet fragment.selectionSet).children := by
    simp [Node.children, fragment, Node.ofSelection]
  have hargument : Node.argument ⟨"x", .int 1⟩ ∈ (Node.field field).children := by
    simp [Node.children, field]
  have hvalue : Node.intValue 1 ∈ (Node.argument ⟨"x", .int 1⟩).children := by
    simp [Node.children, Node.ofValue]
  refine .fragment rfl fragment?_eq List.not_mem_nil (.child hset (fun _ => rfl) ?_)
  exact .child hfield (fun _ => rfl) (.child hargument (fun _ => rfl)
    (.child hvalue (fun _ => rfl) .here))

/-- The value is reached through both spreads. -/
private theorem reached_document :
    Reached document true [] [.document document]
        (inner ++ .fragmentDefinition fragment :: outer) ∧
      Reached document true [] [.document document]
        (inner ++ .fragmentDefinition fragment :: deeperOuter) := by
  have hoperation : Node.operationDefinition operation ∈ (Node.document document).children := by
    simp [Node.children, document, Node.ofDefinition]
  have hset : Node.selectionSet operation.selectionSet ∈
      (Node.operationDefinition operation).children := by
    simp [Node.children]
  have hfield : Node.field outerField ∈ (Node.selectionSet operation.selectionSet).children := by
    simp [Node.children, operation, spreading, Node.ofSelection]
  have hspread (others : List Selection) : Node.fragmentSpread ⟨.start, "F", []⟩ ∈
      (Node.selectionSet (spreading others)).children := by
    simp [Node.children, spreading, Node.ofSelection]
  have hfieldSet :
      Node.selectionSet outerField.selectionSet ∈ (Node.field outerField).children := by
    simp [Node.children, outerField, spreading]
  constructor
  · exact .child hoperation (fun _ => rfl) (.child hset (fun _ => rfl)
      (.child (hspread _) (fun _ => rfl) (reached_spread _)))
  · exact .child hoperation (fun _ => rfl) (.child hset (fun _ => rfl)
      (.child hfield (fun _ => rfl) (.child hfieldSet (fun _ => rfl)
        (.child (hspread _) (fun _ => rfl) (reached_spread _)))))

end SpreadTwice

/-- In a fragment that is spread at two places, the value of an argument is visited through both
spreads, and what is in effect there is in either case what is in effect on a walk over the fragment
by itself. -/
theorem seesSame_standalone_spreadTwice :
    ∃ s, ([(some SpreadTwice.path, SpreadTwice.source)].foldlM
        (fun b source => b.load source.1 source.2) Builder.empty >>= Builder.build) = .ok s ∧
      ∀ outer ∈ [SpreadTwice.outer, SpreadTwice.deeperOuter],
        ∃ call ∈ SpreadTwice.visitor.callsOver s SpreadTwice.document
          (.document SpreadTwice.document) (),
        call.path = SpreadTwice.inner ++ .fragmentDefinition SpreadTwice.fragment :: outer ∧
        ∃ alone ∈ Visitor.idle.callsOver s SpreadTwice.document
          (.fragmentDefinition SpreadTwice.fragment) (),
        alone.path = SpreadTwice.inner ++ [.fragmentDefinition SpreadTwice.fragment] ∧
        call.context.types.SeesSame alone.context.types := by
  have hpath : SpreadTwice.path.same Introspection.path = false := by decide +kernel
  have hsource : makesUpSchema SpreadTwice.path SpreadTwice.source = true := by decide +kernel
  have hgoesOn : SpreadTwice.visitor.GoesOn := ⟨fun _ _ _ => rfl, fun _ _ _ => rfl⟩
  have hinner : ∀ n ∈ SpreadTwice.inner, n.isFragmentDefinition = false := by
    simp [SpreadTwice.inner, Node.isFragmentDefinition]
  have hfield : ∃ f, .field f ∈ SpreadTwice.inner :=
    ⟨SpreadTwice.field, by simp [SpreadTwice.inner]⟩
  obtain ⟨s, hbuild⟩ := exists_build_of_source hpath hsource
  refine ⟨s, hbuild, fun outer houter => ?_⟩
  have hreached : Reached SpreadTwice.document true [] [.document SpreadTwice.document]
      (SpreadTwice.inner ++ .fragmentDefinition SpreadTwice.fragment :: outer) := by
    obtain ⟨hshort, hlong⟩ := SpreadTwice.reached_document
    simp only [List.mem_cons, List.not_mem_nil, or_false] at houter
    rcases houter with rfl | rfl
    · exact hshort
    · exact hlong
  obtain ⟨call, hcall, hpath⟩ := exists_call_of_reached hgoesOn s () hreached
  obtain ⟨-, ⟨alone, halone, hpath'⟩, hsame⟩ :=
    seesSame_standalone SpreadTwice.visitor s SpreadTwice.document () hcall hpath hinner hfield
  exact ⟨call, hcall, hpath, alone, halone, hpath', hsame _ _ () alone halone hpath'⟩

end GraphQLCheck
