import GraphQLCheck.Proofs.Schema.Sources
import GraphQLCheck.Proofs.Traversal.Paths

/-!
# The types of the arguments of directives

When a schema is built, the fields of its types are checked, with their parameters, but not the
parameters of its directives. `DirectivesRefer` is the condition that is not checked: that the
parameters of the directives that are written are of input types.

Main statements: on a walk over any document an argument of a directive has an input type in effect
just if the parameters of all directives are of input types (`Schema.typesDirectiveArguments_iff`),
and in a schema that has been built this depends on what is written of its directives alone
(`directive_arguments_typed_iff`).
-/

namespace GraphQLCheck

/-- The arguments of a directive that stay: of several with one name, the last. -/
def TypeSystem.DirectiveDefinition.parameters (d : DirectiveDefinition) : List InputValue :=
  Field.parameters.go d.arguments

/-- Whether the parameters of the directives that are written name input types. -/
def DirectivesRefer (ds : List WrittenDefinition) : Prop :=
  ∀ d ∈ directivesIn ds, ∀ v ∈ d.2.parameters,
    StandsForInput (DefinedAs (withIntrospection ds)) v.type.coreName

/-- Whether the parameters of directives name input types is decidable. -/
instance (ds : List WrittenDefinition) : Decidable (DirectivesRefer ds) := by
  unfold DirectivesRefer
  infer_instance

/-- Whether the parameters of all directives of a schema, built in or not, are of input types. -/
def Schema.TypesDirectiveParameters (s : Schema) : Prop :=
  ∀ name d, s.directive? name = some d → ∀ p ∈ d.parameters.values, p.type.InputIn s

/-- Whether on every walk over a document, wherever a visitor is called at an argument that is known
of a directive that is known, the input type of the parameter is in effect. -/
def Schema.TypesDirectiveArguments (s : Schema) : Prop :=
  ∀ (doc : Document) (σ : Type) (v : Visitor σ) (memory : σ),
    ∀ call ∈ v.callsOver s doc (.document doc) memory, ∀ a d outer,
      call.path = .argument a :: .directive d :: outer →
      ∀ directive p, s.directive? d.name = some directive →
        directive.parameters.get? a.name = some p →
        call.context.types.directive? = some directive ∧ call.context.types.argument? = some p ∧
          ∃ r, call.context.types.inputType? = some r ∧ s.resolve? p.type = some r ∧
            r.isInput = true

section Parameters

variable {s : Schema} {ds : List WrittenDefinition}

/-- The parameters of the built-in directives are of scalars that are built in. -/
theorem DirectiveDef.core_mem_builtInNames : ∀ d ∈ builtIns, ∀ p ∈ d.parameters.values,
    p.type.core.name ∈ builtInNames := by
  decide +kernel

/-- The parameters of all directives are of input types just if those that are written name input
types. -/
theorem Schema.MadeOf.typesDirectiveParameters_iff (h : s.MadeOf ds) :
    s.TypesDirectiveParameters ↔ DirectivesRefer ds := by
  have hkind : s.types.HasKind = DefinedAs (withIntrospection ds) := h.types.hasKind_eq
  have hwritten {path : Path} {v : TypeSystem.InputValue} :
      (InputDef.ofWritten path v).type.InputIn s ↔
        StandsForInput (DefinedAs (withIntrospection ds)) v.type.coreName := by
    rw [AnnotatedType.inputIn_iff, hkind, InputDef.ofWritten, AnnotatedType.name_core_ofExpr]
  constructor
  · intro htypes w hw v hv
    have hp : .ofWritten w.1 v ∈ (DirectiveDef.written w.1 w.2).parameters.values :=
      InputDef.mem_values_ofList.2 ⟨v, hv, rfl⟩
    exact hwritten.1 (htypes _ _ (h.directive?_written hw) _ hp)
  · intro hrefer name d hd p hp
    rcases h.directive_cases hd with ⟨w, hw, -, rfl⟩ | ⟨hbuiltIn, -⟩
    · obtain ⟨v, hv, rfl⟩ := InputDef.mem_values_ofList.1 hp
      exact hwritten.2 (hrefer w hw v hv)
    · have hname := DirectiveDef.core_mem_builtInNames d hbuiltIn p hp
      rw [AnnotatedType.inputIn_iff, hkind]
      exact ⟨.scalar, .inl ⟨hname, rfl⟩, rfl⟩

end Parameters

section Arguments

/-- A directive with one argument. -/
def Directive.withArgument (name argument : String) : Directive :=
  ⟨.start, name, [⟨argument, .null⟩]⟩

/-- An operation with a directive, which selects nothing. -/
def OperationDefinition.withDirective (d : Directive) : OperationDefinition :=
  ⟨.start, .query, none, [], [d], ⟨.start, .start, []⟩⟩

/-- A visitor that goes on everywhere comes to the arguments of a directive of an operation. -/
theorem exists_call_of_argument (s : Schema) {d : Directive} {a : Argument} (ha : a ∈ d.arguments) :
    let doc : Document := ⟨[.operation (.withDirective d)]⟩
    ∃ call ∈ (Visitor.idle : Visitor Unit).callsOver s doc (.document doc) (),
      call.path = [.argument a, .directive d, .operationDefinition (.withDirective d),
        .document doc] := by
  intro doc
  have hoperation : Node.operationDefinition (.withDirective d) ∈ (Node.document doc).children :=
    List.mem_singleton.2 rfl
  have hdirective : Node.directive d ∈
      (Node.operationDefinition (.withDirective d)).children := List.mem_cons_self
  have hargument : Node.argument a ∈ (Node.directive d).children := List.mem_map_of_mem ha
  refine exists_call_of_reached Visitor.idle_goesOn s () ?_
  exact .child hoperation (fun _ => rfl) (.child hdirective (fun _ => rfl)
    (.child hargument (fun _ => rfl) .here))

/-- The arguments of directives have input types in effect on all walks just if the parameters are
of input types. -/
theorem Schema.typesDirectiveArguments_iff (s : Schema) :
    s.TypesDirectiveArguments ↔ s.TypesDirectiveParameters := by
  constructor
  · intro htypes name d hd p hp
    obtain ⟨⟨key, p⟩, hmem, rfl⟩ := List.mem_map.1 hp
    -- a document may use any directive with any of its parameters
    obtain ⟨call, hcall, hpath⟩ := exists_call_of_argument s (d := .withArgument name key)
      (List.mem_singleton.2 rfl)
    obtain ⟨-, -, r, -, hr, hinput⟩ := htypes _ _ _ _ call hcall _ _ _ hpath d p hd
      (OrderedMap.get?_eq_some_iff.2 hmem)
    exact ⟨r, hr, hinput⟩
  · intro htypes doc σ v memory call hcall a d outer hpath directive p hdirective hp
    have hat : call.context.At s doc [] call.node :=
      at_of_mem_callsOver (.step .here .document) hcall
    have hcontext : call.context.types = typesAlong s call.path := hat.types
    rw [hpath] at hcontext
    have hin : p.type.InputIn s := htypes _ _ hdirective p
      (List.mem_map_of_mem (OrderedMap.get?_eq_some_iff.1 hp))
    obtain ⟨r, hr, hinput⟩ := hin
    have hargument : call.context.types.argument? = some p := by
      rw [hcontext]
      show (s.directive? d.name).bind (·.parameters.get? a.name) = some p
      rw [hdirective]
      exact hp
    have htype : call.context.types.inputType? =
        call.context.types.argument?.bind (s.resolve? ·.type) := by
      rw [hcontext]
      rfl
    refine ⟨?_, hargument, r, ?_, hr, hinput⟩
    · rw [hcontext]
      exact hdirective
    · rw [htype, hargument]
      exact hr

end Arguments

/-- Whatever sources a schema is built of, the parameters of all its directives are of input types,
and arguments of directives have input types in effect on all walks, just if the parameters of the
directives that are written name input types. -/
theorem directive_arguments_typed_iff (sources : List (Option Path × String)) {s : Schema}
    (hbuild : (sources.foldlM (fun b source => b.load source.1 source.2) Builder.empty >>=
      Builder.build) = .ok s) :
    (s.TypesDirectiveParameters ↔ DirectivesRefer (writtenFrom 0 sources)) ∧
      (s.TypesDirectiveArguments ↔ DirectivesRefer (writtenFrom 0 sources)) := by
  obtain ⟨b, hb, hbuild⟩ := exists_loaded_writtenFrom hbuild
  have hmade : s.MadeOf (writtenFrom 0 sources) := .of_build hb hbuild
  have hparameters := hmade.typesDirectiveParameters_iff
  exact ⟨hparameters, s.typesDirectiveArguments_iff.trans hparameters⟩

namespace TypedDirective

/-- The path of the source below. -/
def path : Path := ⟨"typed.graphql"⟩

/-- A source with a directive that comes before one of the types of its parameters. -/
def source : String :=
  "directive @find(by: [Filter!], kind: __TypeKind = OBJECT) on FIELD
type Query \x7b a: Int \x7d input Filter \x7b name: String \x7d"

end TypedDirective

open TypedDirective in
/-- A schema is built of that source, and the arguments of its directives have input types. -/
theorem directive_arguments_typed_iff_typedDirective :
    ∃ s, ([(some path, source)].foldlM (fun b source => b.load source.1 source.2)
        Builder.empty >>= Builder.build) = .ok s ∧
      s.TypesDirectiveParameters ∧ s.TypesDirectiveArguments := by
  have hpath : path.same Introspection.path = false := by decide +kernel
  have hsource : makesUpSchema path source = true := by decide +kernel
  obtain ⟨s, hbuild⟩ := exists_build_of_source hpath hsource
  obtain ⟨hparameters, harguments⟩ := directive_arguments_typed_iff _ hbuild
  have hrefer : DirectivesRefer (writtenFrom 0 [(some path, source)]) := by decide +kernel
  exact ⟨s, hbuild, hparameters.2 hrefer, harguments.2 hrefer⟩

namespace MissingType

/-- The path of the source below. -/
def path : Path := ⟨"d.graphql"⟩

/-- A source with a directive that has a parameter of a type that is not defined. -/
def source : String := "directive @d(x: Missing) on FIELD type Query \x7b a: Int \x7d"

end MissingType

open MissingType in
/-- A schema is built of that source, though the parameter is of no input type, and there is a
document in which no input type is in effect at an argument of the directive. -/
theorem not_directive_arguments_typed_missingType :
    ∃ s, ([(some path, source)].foldlM (fun b source => b.load source.1 source.2)
        Builder.empty >>= Builder.build) = .ok s ∧
      ¬ s.TypesDirectiveParameters ∧ ¬ s.TypesDirectiveArguments := by
  have hpath : path.same Introspection.path = false := by decide +kernel
  have hsource : makesUpSchema path source = true := by decide +kernel
  obtain ⟨s, hbuild⟩ := exists_build_of_source hpath hsource
  obtain ⟨b, hb, hbuilt⟩ := exists_loaded_writtenFrom hbuild
  have hmade : s.MadeOf (writtenFrom 0 [(some path, source)]) := .of_build hb hbuilt
  have hmissing : ¬ DirectivesRefer (writtenFrom 0 [(some path, source)]) := by decide +kernel
  have hparameters : ¬ s.TypesDirectiveParameters := fun htypes =>
    hmissing (hmade.typesDirectiveParameters_iff.1 htypes)
  exact ⟨s, hbuild, hparameters, fun htypes => hparameters (s.typesDirectiveArguments_iff.1 htypes)⟩

end GraphQLCheck
