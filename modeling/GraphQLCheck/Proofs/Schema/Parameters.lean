import GraphQLCheck.Proofs.Schema.Sources

/-!
# Which written arguments become parameters

The arguments of a field or a directive are inserted into a map by their names. No check stands
before that, so an argument whose name comes again is replaced by the later one. `KeepsArguments`
says of a map of parameters that nothing of the kind has happened to it.

Main statements: the fields of a type are those that its definition and its extensions write
(`Schema.MadeOf.ownField?_eq_some_iff`), and a schema keeps all arguments just if no field and no
directive has two arguments of one name (`keepsArguments_iff`).
-/

namespace GraphQLCheck

namespace TypeSystem

/-- The fields that a body writes. -/
def Body.fields : Body → List Field
  | .object _ fields | .interface _ fields => fields
  | _ => []

/-- The lists of arguments that a definition writes: one for each field of a type or of an
extension, and one for a directive. -/
def Definition.argumentLists : Definition → List (List InputValue)
  | .type d => d.body.fields.map Field.arguments
  | .extension e => e.body.fields.map Field.arguments
  | .directive d => [d.arguments]
  | .schema _ => []

end TypeSystem

/-- Whether there is one parameter for each argument of a list that is written in the source at
`path`, in written order. -/
def KeepsArguments (path : Path) (vs : List TypeSystem.InputValue)
    (parameters : OrderedMap InputDef) : Prop :=
  parameters.entries = vs.map fun v => (v.name, .ofWritten path v)

/-- The arguments that are inserted under their names are kept if no two have one name. -/
theorem keepsArguments_ofList_iff {path : Path} {vs : List TypeSystem.InputValue} :
    KeepsArguments path vs (.ofList (vs.map fun v => (v.name, .ofWritten path v))) ↔
      (vs.map TypeSystem.InputValue.name).Nodup := by
  rw [KeepsArguments, OrderedMap.entries_ofList_eq_iff, List.map_map]
  rfl

/-- Arguments that are kept have different names, since these are the keys of a map. -/
theorem KeepsArguments.nodup {path : Path} {vs : List TypeSystem.InputValue}
    {parameters : OrderedMap InputDef} (h : KeepsArguments path vs parameters) :
    (vs.map TypeSystem.InputValue.name).Nodup := by
  have hkeys := parameters.nodup_keys
  rw [h, List.map_map] at hkeys
  exact hkeys

/-- The parts of a type that are written in some sources: its definition and its extensions. -/
inductive WritesPart (ds : List WrittenDefinition) : String → Part → Prop
  | definition {path : Path} {d : TypeSystem.TypeDefinition} (hd : (path, .type d) ∈ ds) :
      WritesPart ds d.name (.ofDefinition path d)
  | extension {path : Path} {e : TypeSystem.TypeExtension} (he : (path, .extension e) ∈ ds) :
      WritesPart ds e.name (.ofExtension path e)

/-- The field that a type of a schema has itself, meta-fields apart. -/
def Schema.ownField? (s : Schema) (type name : String) : Option FieldDef :=
  (s.type? type).bind fun t => t.fields?.bind (·.get? name)

/-- Whether a schema has just the fields and the directives that are written in some sources, apart
from the built-in directives, and whether all of these keep their arguments. -/
structure Schema.KeepsArguments (s : Schema) (ds : List WrittenDefinition) : Prop where
  /-- Every field of a type is written in a part of it, and keeps the arguments that it has
  there. -/
  fields : ∀ type name f, s.ownField? type name = some f → ∃ part, WritesPart ds type part ∧
    ∃ w ∈ part.body.fields, w.name = name ∧
      GraphQLCheck.KeepsArguments part.path w.arguments f.parameters
  /-- Every field that is written in a part of a type is there, and keeps its arguments. -/
  writtenFields : ∀ type part, WritesPart ds type part → ∀ w ∈ part.body.fields,
    ∃ f, s.ownField? type w.name = some f ∧
      GraphQLCheck.KeepsArguments part.path w.arguments f.parameters
  /-- Every directive that is not built in is written, and keeps the arguments that it has there. -/
  directives : ∀ name d, s.directive? name = some d → d.isBuiltIn = false →
    ∃ w ∈ directivesIn ds, w.2.name = name ∧
      GraphQLCheck.KeepsArguments w.1 w.2.arguments d.parameters
  /-- Every directive that is written is there, and keeps its arguments. -/
  writtenDirectives : ∀ w ∈ directivesIn ds, ∃ d, s.directive? w.2.name = some d ∧
    GraphQLCheck.KeepsArguments w.1 w.2.arguments d.parameters

section Fields

/-- The members of a part that are fields are those that its body writes. -/
theorem Part.mem_entries_field_iff {part : Part} {name : String} {f : FieldDef} :
    (name, .field f) ∈ part.entries ↔
      ∃ w ∈ part.body.fields, w.name = name ∧ f = .written part.path w := by
  obtain ⟨path, position, body⟩ := part
  cases body with
  | scalar => exact ⟨fun h => (nomatch h), fun ⟨_, hw, _⟩ => nomatch hw⟩
  | object _ fields | interface _ fields =>
    constructor
    · intro h
      obtain ⟨w, hw, heq⟩ := List.mem_map.1 h
      obtain ⟨hname, hfield⟩ := Prod.mk.inj heq
      exact ⟨w, hw, hname, (MemberDef.field.inj hfield).symm⟩
    · rintro ⟨w, hw, rfl, rfl⟩
      exact List.mem_map.2 ⟨w, hw, rfl⟩
  | union _ | enum _ | inputObject _ =>
    -- the members of other types are no fields
    refine ⟨fun h => ?_, fun ⟨_, hw, _⟩ => nomatch hw⟩
    obtain ⟨_, -, heq⟩ := List.mem_map.1 h
    exact nomatch (Prod.mk.inj heq).2

variable {s : Schema} {ds : List WrittenDefinition} {type : String}

/-- A type that is held has the members of its parts, and no others. -/
theorem TypesHeld.mem_entries_iff {types : TypeMap}
    (h : TypesHeld (typesIn ds) (mergedExtensions ds) types) {e : String × MemberDef} :
    (∃ t, types.get? type = some t ∧ e ∈ t.entries) ↔
      ∃ part, WritesPart ds type part ∧ e ∈ part.entries := by
  have hmerged (path : Path) (e : TypeSystem.TypeExtension) :
      (path, e) ∈ mergedExtensions ds ↔ (path, .extension e) ∈ ds :=
    (mergedExtensions_perm ds).mem_iff.trans mem_extensionsIn
  constructor
  · rintro ⟨t, ht, he⟩
    rcases h.cases ht with ⟨scalar, -, rfl⟩ | ⟨⟨path, d⟩, hd, rfl, hassembled⟩
    · exact nomatch he
    rw [hassembled.entries] at he
    obtain ⟨part, hpart, he⟩ := List.mem_flatMap.1 he
    refine ⟨part, ?_, he⟩
    rcases mem_partsOf.1 hpart with rfl | ⟨⟨path', e'⟩, he', hname, rfl⟩
    · exact .definition (mem_typesIn.1 hd)
    · rw [← hname]
      exact .extension ((hmerged path' e').1 he')
  · rintro ⟨part, hpart, he⟩
    -- a part of any kind is one of those of a definition
    obtain ⟨d, hd, rfl, hmem⟩ : ∃ d ∈ typesIn ds, d.2.name = type ∧
        part ∈ partsOf d (mergedExtensions ds) := by
      cases hpart with
      | definition hd => exact ⟨_, mem_typesIn.2 hd, rfl, mem_partsOf.2 (.inl rfl)⟩
      | extension hextension =>
        have hmem := (hmerged _ _).2 hextension
        obtain ⟨d, hd, hname⟩ := List.mem_map.1 (h.extended _ hmem)
        exact ⟨d, hd, hname, mem_partsOf.2 (.inr ⟨_, hmem, hname.symm, rfl⟩)⟩
    obtain ⟨t, ht, hassembled⟩ := h.custom d hd
    refine ⟨t, ht, ?_⟩
    rw [hassembled.entries]
    exact List.mem_flatMap.2 ⟨part, hmem, he⟩

/-- The fields of a type are those that are written in its parts. -/
theorem Schema.MadeOf.ownField?_eq_some_iff (h : s.MadeOf ds) {name : String} {f : FieldDef} :
    s.ownField? type name = some f ↔ ∃ part, WritesPart (withIntrospection ds) type part ∧
      ∃ w ∈ part.body.fields, w.name = name ∧ f = .written part.path w := by
  calc s.ownField? type name = some f
    _ ↔ ∃ t, s.type? type = some t ∧ (name, MemberDef.field f) ∈ t.entries := by
        simp only [Schema.ownField?, Option.bind_eq_some_iff, NamedType.mem_entries_field_iff]
    _ ↔ ∃ part, WritesPart (withIntrospection ds) type part ∧
          (name, MemberDef.field f) ∈ part.entries := h.types.mem_entries_iff
    _ ↔ _ := by simp only [Part.mem_entries_field_iff]

end Fields

section Arguments

variable {s : Schema} {ds : List WrittenDefinition}

/-- The arguments of a field that is written in a part are those of a definition. -/
theorem WritesPart.exists_argumentLists {type : String} {part : Part} (h : WritesPart ds type part)
    {w : TypeSystem.Field} (hw : w ∈ part.body.fields) :
    ∃ x ∈ ds, w.arguments ∈ x.2.argumentLists := by
  cases h with
  | definition hd => exact ⟨_, hd, List.mem_map_of_mem hw⟩
  | extension he => exact ⟨_, he, List.mem_map_of_mem hw⟩

/-- The directives that every schema has are built in. -/
theorem DirectiveDef.isBuiltIn_of_mem_builtIns : ∀ {d}, d ∈ builtIns → d.isBuiltIn = true := by
  decide +kernel

/-- The introspection types have no field with two arguments of one name. -/
theorem Introspection.nodup_arguments : ∀ d ∈ definitions, ∀ vs ∈ d.argumentLists,
    (vs.map TypeSystem.InputValue.name).Nodup := by
  decide +kernel

/-- All arguments are kept just if no field and no directive has two arguments of one name. -/
theorem Schema.MadeOf.keepsArguments_iff_nodup (h : s.MadeOf ds) :
    s.KeepsArguments (withIntrospection ds) ↔ ∀ x ∈ ds, ∀ vs ∈ x.2.argumentLists,
      (vs.map TypeSystem.InputValue.name).Nodup := by
  constructor
  · rintro hkeeps ⟨path, d⟩ hd vs hvs
    have hall : (path, d) ∈ withIntrospection ds := List.mem_append_left _ hd
    -- what has kept its arguments holds them under their names, so no name comes twice
    cases d with
    | schema d => exact nomatch hvs
    | type d =>
      obtain ⟨w, hw, rfl⟩ := List.mem_map.1 hvs
      obtain ⟨f, -, hf⟩ := hkeeps.writtenFields _ _ (.definition hall) w hw
      exact hf.nodup
    | extension e =>
      obtain ⟨w, hw, rfl⟩ := List.mem_map.1 hvs
      obtain ⟨f, -, hf⟩ := hkeeps.writtenFields _ _ (.extension hall) w hw
      exact hf.nodup
    | directive d =>
      obtain rfl := List.mem_singleton.1 hvs
      obtain ⟨d', -, hd'⟩ := hkeeps.writtenDirectives (path, d) (mem_directivesIn.2 hall)
      exact hd'.nodup
  · intro hnodup
    -- the introspection types are written like others, and have no such arguments either
    have hall : ∀ x ∈ withIntrospection ds, ∀ vs ∈ x.2.argumentLists,
        (vs.map TypeSystem.InputValue.name).Nodup := by
      refine List.forall_mem_append.2 ⟨hnodup, List.forall_mem_map.2 ?_⟩
      exact Introspection.nodup_arguments
    have hfield {type : String} {part : Part} (hpart : WritesPart (withIntrospection ds) type part)
        {w : TypeSystem.Field} (hw : w ∈ part.body.fields) :
        GraphQLCheck.KeepsArguments part.path w.arguments
          (FieldDef.written part.path w).parameters := by
      obtain ⟨x, hx, hvs⟩ := hpart.exists_argumentLists hw
      exact keepsArguments_ofList_iff.2 (hall x hx _ hvs)
    have hdirective {w : Path × TypeSystem.DirectiveDefinition} (hw : w ∈ directivesIn ds) :
        GraphQLCheck.KeepsArguments w.1 w.2.arguments
          (DirectiveDef.written w.1 w.2).parameters :=
      keepsArguments_ofList_iff.2 (hnodup _ (mem_directivesIn.1 hw) _ (List.mem_singleton.2 rfl))
    refine
      { fields := fun type name f hf => ?fields
        writtenFields := fun type part hpart w hw =>
          ⟨_, h.ownField?_eq_some_iff.2 ⟨part, hpart, w, hw, rfl, rfl⟩, hfield hpart hw⟩
        directives := fun name d hd hcustom => ?directives
        writtenDirectives := ?writtenDirectives }
    case fields =>
      obtain ⟨part, hpart, w, hw, hname, rfl⟩ := h.ownField?_eq_some_iff.1 hf
      exact ⟨part, hpart, w, hw, hname, hfield hpart hw⟩
    case directives =>
      rw [directivesIn_withIntrospection]
      rcases h.directive_cases hd with ⟨w, hw, hname, rfl⟩ | ⟨hbuiltIn, -⟩
      · exact ⟨w, hw, hname, hdirective hw⟩
      · exact nomatch hcustom.symm.trans (DirectiveDef.isBuiltIn_of_mem_builtIns hbuiltIn)
    case writtenDirectives =>
      rw [directivesIn_withIntrospection]
      exact fun w hw => ⟨_, h.directive?_written hw, hdirective hw⟩

end Arguments

/-- Whatever sources a schema is built of, its fields and its directives have one parameter for each
argument that is written, in written order, just if no field and no directive in the sources has two
arguments of one name. -/
theorem keepsArguments_iff (sources : List (Option Path × String)) {s : Schema}
    (hbuild : (sources.foldlM (fun b source => b.load source.1 source.2) Builder.empty >>=
      Builder.build) = .ok s) :
    s.KeepsArguments (withIntrospection (writtenFrom 0 sources)) ↔
      ∀ d ∈ definitionsIn sources, ∀ vs ∈ d.argumentLists,
        (vs.map TypeSystem.InputValue.name).Nodup := by
  obtain ⟨b, hb, hbuild⟩ := exists_loaded_writtenFrom hbuild
  have hmade : s.MadeOf (writtenFrom 0 sources) := .of_build hb hbuild
  rw [hmade.keepsArguments_iff_nodup, ← map_snd_writtenFrom 0, List.forall_mem_map]

namespace TwoArguments

/-- The path of the source below. -/
def path : Path := ⟨"arguments.graphql"⟩

/-- A source with arguments for a field, for a field that an extension adds, and for a directive. -/
def source : String :=
  "type Query \x7b f(a: Int, b: ID = 1): Int \x7d
extend type Query \x7b g(b: Int, a: ID): Int \x7d directive @d(x: Int, y: Int) on FIELD"

end TwoArguments

open TwoArguments in
/-- A schema is built of that source, and keeps all arguments. -/
theorem keepsArguments_iff_twoArguments :
    ∃ s, ([(some path, source)].foldlM (fun b source => b.load source.1 source.2)
        Builder.empty >>= Builder.build) = .ok s ∧
      s.KeepsArguments (withIntrospection (writtenFrom 0 [(some path, source)])) := by
  have hpath : path.same Introspection.path = false := by decide +kernel
  have hsource : makesUpSchema path source = true := by decide +kernel
  obtain ⟨s, hbuild⟩ := exists_build_of_source hpath hsource
  exact ⟨s, hbuild, (keepsArguments_iff _ hbuild).2 (by decide +kernel)⟩

namespace RepeatedArgument

/-- The path of the source below. -/
def path : Path := ⟨"parameters.graphql"⟩

/-- A source with a field that has two arguments of one name. -/
def source : String := "type Query \x7b f(a: Int, a: String = \"x\"): Int \x7d"

end RepeatedArgument

open RepeatedArgument in
/-- A schema is built of that source, though it does not keep both arguments. -/
theorem not_keepsArguments_repeatedArgument :
    ∃ s, ([(some path, source)].foldlM (fun b source => b.load source.1 source.2)
        Builder.empty >>= Builder.build) = .ok s ∧
      ¬ s.KeepsArguments (withIntrospection (writtenFrom 0 [(some path, source)])) := by
  have hpath : path.same Introspection.path = false := by decide +kernel
  have hsource : makesUpSchema path source = true := by decide +kernel
  obtain ⟨s, hbuild⟩ := exists_build_of_source hpath hsource
  obtain ⟨b, hb, hbuilt⟩ := exists_loaded_writtenFrom hbuild
  have hmade : s.MadeOf (writtenFrom 0 [(some path, source)]) := .of_build hb hbuilt
  have hrepeated : ¬ ∀ x ∈ writtenFrom 0 [(some path, source)], ∀ vs ∈ x.2.argumentLists,
      (vs.map TypeSystem.InputValue.name).Nodup := by
    decide +kernel
  exact ⟨s, hbuild, fun hkeeps => hrepeated (hmade.keepsArguments_iff_nodup.1 hkeeps)⟩

end GraphQLCheck
