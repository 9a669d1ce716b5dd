import GraphQLCheck.Proofs.Schema.IntrospectionTypes
import GraphQLCheck.Proofs.Schema.Sources

/-!
# Reserved names are left to introspection

Names that begin with two underscores are for the introspection types and the meta-fields.
Meta-fields are looked for before the fields that a type writes, so a type that wrote a field of
such a name would lose it.

Main statements: nothing that a schema is made of has a reserved name but the introspection types
(`Schema.MadeOf.namesReserved`), no meta-field hides a field therefore
(`Schema.NamesReserved.looksUpFields`), and both hold of every schema that is built of sources none
of which has the path of the introspection types (`names_reserved_of_build`).
-/

namespace GraphQLCheck

/-- Whether everything in a map is kept under its own name, and no name is reserved. -/
def OrderedMap.Unreserved {α : Type} (nameOf : α → String) (m : OrderedMap α) : Prop :=
  ∀ e ∈ m.entries, nameOf e.2 = e.1 ∧ isReservedName e.1 = false

/-- Whether a member of a type, under its key, gives no reserved name to a field, to a parameter or
to an input field. -/
def MemberDef.Unreserved (key : String) : MemberDef → Prop
  | .field f =>
    (f.name = key ∧ isReservedName key = false) ∧ f.parameters.Unreserved InputDef.name
  | .inputField f => f.name = key ∧ isReservedName key = false
  | .value _ | .member _ => True

/-- Whether a type is one of the introspection types. -/
def NamedType.IsIntrospection (t : NamedType) : Prop :=
  ∃ d ∈ Introspection.typeDefinitions, t.name = d.name ∧ t.kind = d.body.kind ∧
    t.location = .written Introspection.path d.position

/-- Whether reserved names are left to the introspection types. -/
structure Schema.NamesReserved (s : Schema) : Prop where
  /-- Every type is held under its own name, which is reserved just if it is an introspection
  type. -/
  types : ∀ name t, s.type? name = some t →
    t.name = name ∧ (isReservedName name = true ↔ t.IsIntrospection)
  /-- All introspection types are there. -/
  introspection : ∀ d ∈ Introspection.typeDefinitions, ∃ t, s.type? d.name = some t
  /-- No field and no parameter of a field has a reserved name. -/
  fields : ∀ name t, s.type? name = some t → ∀ fields, t.fields? = some fields →
    fields.Unreserved FieldDef.name ∧
      ∀ f ∈ fields.values, f.parameters.Unreserved InputDef.name
  /-- No input field has a reserved name. -/
  inputFields : ∀ name t, s.type? name = some (.inputObject t) → t.fields.Unreserved InputDef.name
  /-- No directive has a reserved name. -/
  directives : s.directives.Unreserved DirectiveDef.name

/-- The meta-fields of a type of a schema: its name, if it has selections, and, if it is the root of
queries, the schema and the types by name. -/
inductive Schema.HasMetaField (s : Schema) (t : NamedType) : String → FieldDef → Prop where
  | typename (h : t.isComposite = true) : HasMetaField s t "__typename" MetaField.typename
  | schema (h : s.rootType? .query = some t) : HasMetaField s t "__schema" MetaField.schema
  | type (h : s.rootType? .query = some t) : HasMetaField s t "__type" MetaField.type

/-- Whether a look-up of a field on a type finds what the type writes, and else the meta-fields. -/
structure Schema.LooksUpFields (s : Schema) : Prop where
  /-- A field that a type has is found. -/
  own : ∀ typeName t, s.type? typeName = some t → ∀ name f,
    t.fields?.bind (·.get? name) = some f → s.field? t name = some f
  /-- Under other names just the meta-fields of the type are found. -/
  metaField : ∀ typeName t, s.type? typeName = some t → ∀ name,
    t.fields?.bind (·.get? name) = none → ∀ f, s.field? t name = some f ↔ s.HasMetaField t name f

section Parts

/-- A part that gives no reserved name contributes no member with one. -/
theorem Part.unreserved_of_mem_entries {part : Part}
    (h : ∀ x ∈ part.body.givenNames, isReservedName x = false) {e : String × MemberDef}
    (he : e ∈ part.entries) : e.2.Unreserved e.1 := by
  obtain ⟨path, position, body⟩ := part
  cases body with
  | scalar => exact nomatch he
  | object _ fields | interface _ fields =>
    obtain ⟨f, hf, rfl⟩ := List.mem_map.1 he
    have hgiven {x : String} (hx : x ∈ f.name :: f.arguments.map TypeSystem.InputValue.name) :
        isReservedName x = false := h x (List.mem_flatMap.2 ⟨f, hf, hx⟩)
    refine ⟨⟨rfl, hgiven List.mem_cons_self⟩, fun p hp => ?_⟩
    -- a parameter that stays is one that is written
    obtain ⟨v, hv, rfl⟩ := List.mem_map.1 (OrderedMap.entries_ofList_subset _ hp)
    exact ⟨rfl, hgiven (List.mem_cons_of_mem _ (List.mem_map_of_mem hv))⟩
  | union _ | enum _ =>
    obtain ⟨_, -, rfl⟩ := List.mem_map.1 he
    trivial
  | inputObject fields =>
    obtain ⟨v, hv, rfl⟩ := List.mem_map.1 he
    exact ⟨rfl, h _ (List.mem_map_of_mem hv)⟩

/-- No type that is held has a member with a reserved name. -/
theorem TypesHeld.unreserved {defs : List (Path × TypeSystem.TypeDefinition)}
    {es : List (Path × TypeSystem.TypeExtension)} {types : TypeMap} (h : TypesHeld defs es types)
    {name : String} {t : NamedType} (ht : types.get? name = some t) {e : String × MemberDef}
    (he : e ∈ t.entries) : e.2.Unreserved e.1 := by
  rcases h.cases ht with ⟨s, -, rfl⟩ | ⟨d, -, -, hassembled⟩
  · exact nomatch he
  · rw [hassembled.entries] at he
    obtain ⟨part, hpart, he⟩ := List.mem_flatMap.1 he
    refine Part.unreserved_of_mem_entries (fun x hx => hassembled.merges.unreserved x ?_) he
    exact List.mem_flatMap.2 ⟨part.body, List.mem_map_of_mem hpart, hx⟩

end Parts

section Names

/-- The names of the introspection types are reserved. -/
theorem Introspection.isReservedName_name :
    ∀ d ∈ typeDefinitions, isReservedName d.name = true := by
  decide +kernel

/-- The names of built-in scalars are not reserved. -/
theorem BuiltInScalar.isReservedName_name (s : BuiltInScalar) : isReservedName s.name = false := by
  cases s <;> decide +kernel

/-- The names of built-in directives are not reserved. -/
theorem DirectiveDef.isReservedName_builtIns : ∀ d ∈ builtIns, isReservedName d.name = false := by
  decide +kernel

variable {s : Schema} {ds : List WrittenDefinition}

/-- The types with reserved names are the introspection types, if no other type is defined under
such a name. -/
theorem Schema.MadeOf.isReservedName_iff (h : s.MadeOf ds) (hds : WellFormed ds) {name : String}
    {t : NamedType} (ht : s.type? name = some t) :
    isReservedName name = true ↔ t.IsIntrospection := by
  constructor
  · intro hreserved
    rcases h.types.cases ht with ⟨scalar, rfl, -⟩ | ⟨⟨path, d⟩, hd, rfl, hassembled⟩
    · exact nomatch hreserved.symm.trans scalar.isReservedName_name
    rcases mem_typesIn_withIntrospection.1 hd with hd | ⟨rfl, hdefinition⟩
    · -- sources other than that of the introspection types define no such type
      have hname := hds.typesUnreserved d.name (List.mem_map.2 ⟨_, hd, rfl⟩)
      exact nomatch hreserved.symm.trans hname
    · exact ⟨d, hdefinition, hassembled.name, hassembled.kind, hassembled.location⟩
  · rintro ⟨d, hd, hname, -, -⟩
    rw [← h.types.name_of_get? ht, hname]
    exact Introspection.isReservedName_name d hd

/-- Reserved names are left to the introspection types in a schema that is made of well-formed
definitions. -/
theorem Schema.MadeOf.namesReserved (h : s.MadeOf ds) (hds : WellFormed ds) : s.NamesReserved where
  types name t ht := ⟨h.types.name_of_get? ht, h.isReservedName_iff hds ht⟩
  introspection d hd := by
    obtain ⟨t, -, ht, -⟩ := h.introspection_held hd
    exact ⟨t, ht⟩
  fields name t ht fields hfields := by
    have hunreserved {e : String × FieldDef} (he : e ∈ fields.entries) :
        (MemberDef.field e.2).Unreserved e.1 :=
      h.types.unreserved ht (e := (e.1, .field e.2))
        (NamedType.mem_entries_field_iff.2 ⟨fields, hfields, OrderedMap.get?_eq_some_iff.2 he⟩)
    refine ⟨fun e he => (hunreserved he).1, fun f hf => ?_⟩
    obtain ⟨e, he, rfl⟩ := List.mem_map.1 hf
    exact (hunreserved he).2
  inputFields name t ht e he :=
    h.types.unreserved ht (List.mem_map.2 ⟨e, he, rfl⟩)
  directives := by
    rintro ⟨name, d⟩ he
    have hd : s.directive? name = some d := OrderedMap.get?_eq_some_iff.2 he
    rcases h.directive_cases hd with ⟨w, hw, rfl, rfl⟩ | ⟨hbuiltIn, rfl⟩
    · exact ⟨rfl, hds.directivesUnreserved w hw⟩
    · exact ⟨rfl, DirectiveDef.isReservedName_builtIns d hbuiltIn⟩

end Names

section Lookup

variable {s : Schema} {typeName : String} {t : NamedType}

namespace Schema.NamesReserved

/-- The root of queries is the type with its name. -/
theorem rootType?_query_iff (h : s.NamesReserved) (ht : s.type? typeName = some t) :
    s.rootType? .query = some t ↔ t.name = s.query.name := by
  have hroot : s.rootType? .query = s.type? s.query.name := rfl
  obtain ⟨hname, -⟩ := h.types typeName t ht
  rw [hroot]
  constructor
  · intro hquery
    exact (h.types _ t hquery).1
  · intro hquery
    rw [← hquery, hname]
    exact ht

/-- A field that a type writes is found, since it does not have the name of a meta-field. -/
theorem field?_own (h : s.NamesReserved) (ht : s.type? typeName = some t) {name : String}
    {f : FieldDef} (hf : t.fields?.bind (·.get? name) = some f) : s.field? t name = some f := by
  obtain ⟨fields, hfields, hget⟩ := Option.bind_eq_some_iff.1 hf
  obtain ⟨hunreserved, -⟩ := h.fields typeName t ht fields hfields
  obtain ⟨-, hname⟩ := hunreserved _ (OrderedMap.get?_eq_some_iff.1 hget)
  have hne {metaName : String} (hmeta : isReservedName metaName = true) : name ≠ metaName := by
    rintro rfl
    exact nomatch hmeta.symm.trans hname
  have htypename : name ≠ "__typename" := hne (by decide +kernel)
  have hschema : name ≠ "__schema" := hne (by decide +kernel)
  have htype : name ≠ "__type" := hne (by decide +kernel)
  rw [Schema.field?, if_neg fun hmeta => htypename hmeta.1, if_neg fun hmeta => hschema hmeta.1,
    if_neg fun hmeta => htype hmeta.1]
  exact hf

/-- Where a type writes no field, its meta-fields are found. -/
theorem field?_metaField (h : s.NamesReserved) (ht : s.type? typeName = some t) {name : String}
    (hnone : t.fields?.bind (·.get? name) = none) {f : FieldDef} :
    s.field? t name = some f ↔ s.HasMetaField t name f := by
  have hquery := h.rootType?_query_iff ht
  constructor
  · intro hf
    unfold Schema.field? at hf
    -- the meta-fields are looked for one after the other, each under its own name
    split at hf
    next hmeta =>
      obtain ⟨rfl, hcomposite⟩ := hmeta
      obtain rfl := Option.some.inj hf
      exact .typename hcomposite
    split at hf
    next hmeta =>
      obtain ⟨rfl, hname⟩ := hmeta
      obtain rfl := Option.some.inj hf
      exact .schema (hquery.2 hname)
    split at hf
    next hmeta =>
      obtain ⟨rfl, hname⟩ := hmeta
      obtain rfl := Option.some.inj hf
      exact .type (hquery.2 hname)
    next => exact nomatch hnone.symm.trans hf
  · intro hf
    cases hf with
    | typename hcomposite => rw [Schema.field?, if_pos ⟨rfl, hcomposite⟩]
    | schema hroot =>
      rw [Schema.field?, if_neg fun hmeta => absurd hmeta.1 (by decide),
        if_pos ⟨rfl, hquery.1 hroot⟩]
    | type hroot =>
      rw [Schema.field?, if_neg fun hmeta => absurd hmeta.1 (by decide),
        if_neg fun hmeta => absurd hmeta.1 (by decide), if_pos ⟨rfl, hquery.1 hroot⟩]

/-- Where reserved names are left to the introspection types, no meta-field hides a field. -/
theorem looksUpFields (h : s.NamesReserved) : s.LooksUpFields where
  own _ _ ht _ _ hf := h.field?_own ht hf
  metaField _ _ ht _ hnone _ := h.field?_metaField ht hnone

end Schema.NamesReserved

end Lookup

section Sources

/-- A source without a path does not get that of the introspection types. -/
theorem Builder.same_unnamedPath (n : UInt16) :
    (unnamedPath n).same Introspection.path = false := by
  -- the paths differ in their first components, whatever the number is
  refine decide_eq_false fun heq => ?_
  rw [components_unnamedPath] at heq
  have hhead : some (.name "str:") = Introspection.path.components.head? :=
    congrArg List.head? heq
  exact absurd hhead (by decide +kernel)

/-- In every schema that is built of sources none of which has the path of the introspection types,
only these types have reserved names, and no field, input field, parameter of a field or directive
has one. Hence a field that a type writes is always found, and the meta-fields are found just on the
types that have them. -/
theorem names_reserved_of_build (sources : List (Option Path × String))
    (hpaths : ∀ source ∈ sources, ∀ path, source.1 = some path →
      path.same Introspection.path = false) {s : Schema}
    (hbuild : (sources.foldlM (fun b source => b.load source.1 source.2) Builder.empty >>=
      Builder.build) = .ok s) : s.NamesReserved ∧ s.LooksUpFields := by
  obtain ⟨b, hb, hbuild⟩ := exists_loaded_writtenFrom hbuild
  have hwritten : ∀ x ∈ writtenFrom 0 sources, x.1.same Introspection.path = false := by
    intro x hx
    rcases path_of_mem_writtenFrom hx with ⟨source, hsource, hpath⟩ | ⟨n, hpath⟩
    · exact hpaths source hsource x.1 hpath
    · rw [hpath]
      exact Builder.same_unnamedPath n
  have hmade : s.MadeOf (writtenFrom 0 sources) := .of_build hb hbuild
  have hnames := hmade.namesReserved (.of_buildable (.of_build hb hbuild) hwritten)
  exact ⟨hnames, hnames.looksUpFields⟩

namespace NearlyReserved

/-- The path of the source below. -/
def path : Path := ⟨"nearly.graphql"⟩

/-- A source with names that are nearly reserved, and an extension of an introspection type. -/
def source : String :=
  "type Query \x7b _typename: Int schema(_name: Type): Query \x7d input Type \x7b _: ID \x7d
extend type __Type \x7b type: Int \x7d directive @_d(x: Int) on FIELD"

end NearlyReserved

open NearlyReserved in
/-- A schema is built of that source, and leaves reserved names to the introspection types. -/
theorem names_reserved_of_build_nearlyReserved :
    path.same Introspection.path = false ∧
      ∃ s, ([(some path, source)].foldlM (fun b source => b.load source.1 source.2)
        Builder.empty >>= Builder.build) = .ok s ∧ s.NamesReserved ∧ s.LooksUpFields := by
  have hpath : path.same Introspection.path = false := by decide +kernel
  have hsource : makesUpSchema path source = true := by decide +kernel
  obtain ⟨s, hbuild⟩ := exists_build_of_source hpath hsource
  refine ⟨hpath, s, hbuild, names_reserved_of_build _ (fun source hmem path' hpath' => ?_) hbuild⟩
  obtain rfl := List.mem_singleton.1 hmem
  obtain rfl := Option.some.inj hpath'
  exact hpath

end Sources

end GraphQLCheck
