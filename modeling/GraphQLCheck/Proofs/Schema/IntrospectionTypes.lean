import GraphQLCheck.Proofs.Schema.Closed

/-!
# What every schema can be asked about itself

A `Place` is where a query may select fields to learn about the schema: at the root of queries, or
at one of the introspection types. `Place.field?` lists what can be selected there, according to
the source of the introspection types alone.

Main statement: in a schema that has been built, whatever else it defines and whatever extends the
introspection types, every place is an object, and has the fields and arguments that are listed
(`Schema.MadeOf.offers`).
-/

namespace GraphQLCheck

/-- A place at which fields can be selected: the root of queries, or a type. -/
inductive Place where
  | queryRoot
  | type (name : String)
deriving DecidableEq

/-- What is known of a field: the name of the type at the core of its type, and the names of the
arguments that it takes. -/
structure KnownField where
  type : String
  arguments : List String

/-- The fields that a definition of a type writes. -/
def TypeSystem.TypeDefinition.fields (d : TypeDefinition) : List Field :=
  match d.body with
  | .object _ fields | .interface _ fields => fields
  | _ => []

namespace Place

/-- The introspection type that is defined under a name. -/
def definition? (name : String) : Option TypeSystem.TypeDefinition :=
  Introspection.typeDefinitions.find? (·.name = name)

/-- Whether a place is the root of queries or an object among the introspection types. -/
def isObject : Place → Bool
  | queryRoot => true
  | type name => (definition? name).any (·.body.kind = .object)

/-- What is known of the field with a name at a place. -/
def field? (place : Place) (name : String) : Option KnownField :=
  match place with
  | queryRoot => if name = "__schema" then some ⟨"__Schema", []⟩ else none
  | type typeName => do
    let d ← definition? typeName
    let f ← d.fields.find? (·.name = name)
    return ⟨f.type.coreName, f.arguments.map TypeSystem.InputValue.name⟩

end Place

/-- What is found under a name is defined under this name. -/
theorem Place.of_definition? {name : String} {d : TypeSystem.TypeDefinition}
    (h : definition? name = some d) : d ∈ Introspection.typeDefinitions ∧ d.name = name := by
  have hname := List.find?_some h
  exact ⟨List.mem_of_find?_eq_some h, of_decide_eq_true hname⟩

/-- The type at a place. -/
def Schema.typeAt? (s : Schema) : Place → Option NamedType
  | .queryRoot => s.rootType? .query
  | .type name => s.type? name

/-- Whether a schema has at a place what is known of it. -/
structure Schema.Offers (s : Schema) : Prop where
  /-- Every place that is known as an object is one. -/
  object : ∀ place, place.isObject = true → ∃ t, s.typeAt? place = some t ∧ t.kind = .object
  /-- Every field that is known is found. Its type stands for the type that is known at its core,
  and it takes the arguments that are known. -/
  field : ∀ place name known, place.field? name = some known →
    ∀ t, s.typeAt? place = some t → ∃ f r, s.field? t name = some f ∧ s.resolve? f.type = some r ∧
      s.type? known.type = some r.core ∧ ∀ a ∈ known.arguments, a ∈ f.parameters.keys

/-- No field of an introspection type has the name of a meta-field. -/
theorem Introspection.name_ne_metaField : ∀ d ∈ typeDefinitions, ∀ f ∈ d.fields,
    f.name ≠ "__typename" ∧ f.name ≠ "__schema" ∧ f.name ≠ "__type" := by
  decide +kernel

/-- The type of the meta-field that gives the schema. -/
theorem MetaField.name_core_schema : MetaField.schema.type.core.name = "__Schema" := by
  decide +kernel

namespace Schema.MadeOf

variable {s : Schema} {ds : List WrittenDefinition}

/-- Every introspection type is held, with what its definition writes and perhaps more. -/
theorem introspection_held (h : s.MadeOf ds) {d : TypeSystem.TypeDefinition}
    (hd : d ∈ Introspection.typeDefinitions) :
    ∃ t parts, s.type? d.name = some t ∧
      Assembled Introspection.path d (.ofDefinition Introspection.path d :: parts) t := by
  have hmem : (Introspection.path, d) ∈ typesIn (withIntrospection ds) :=
    mem_typesIn_withIntrospection.2 (.inr ⟨rfl, hd⟩)
  obtain ⟨t, ht, hassembled⟩ := h.types.custom _ hmem
  exact ⟨t, _, ht, hassembled⟩

/-- The fields that the definition of an introspection type writes are found. -/
theorem field?_introspection (h : s.MadeOf ds) {d : TypeSystem.TypeDefinition}
    (hd : d ∈ Introspection.typeDefinitions) {t : NamedType} (ht : s.type? d.name = some t)
    {f : TypeSystem.Field} (hf : f ∈ d.fields) :
    s.field? t f.name = some (.written Introspection.path f) := by
  obtain ⟨t', parts, ht', hassembled⟩ := h.introspection_held hd
  obtain rfl := Option.some.inj (ht.symm.trans ht')
  -- the field is among the members of the definition, and so among those of the type
  have hpart : (f.name, MemberDef.field (.written Introspection.path f)) ∈
      (Part.ofDefinition Introspection.path d).entries := by
    obtain ⟨position, description, name, body⟩ := d
    cases body with
    | object _ fields | interface _ fields => exact List.mem_map.2 ⟨f, hf, rfl⟩
    | _ => exact absurd hf List.not_mem_nil
  have hentry : (f.name, MemberDef.field (.written Introspection.path f)) ∈ t.entries := by
    rw [hassembled.entries, List.flatMap_cons]
    exact List.mem_append_left _ hpart
  obtain ⟨fields, hfields, hget⟩ := NamedType.mem_entries_field_iff.1 hentry
  obtain ⟨htypename, hschema, htype⟩ := Introspection.name_ne_metaField d hd f hf
  rw [Schema.field?, if_neg fun hmeta => htypename hmeta.1, if_neg fun hmeta => hschema hmeta.1,
    if_neg fun hmeta => htype hmeta.1, hfields]
  exact hget

/-- The root of queries is an object under the name that the schema refers to. -/
theorem query_found (h : s.MadeOf ds) :
    ∃ t, s.rootType? .query = some (.object t) ∧ t.name = s.query.name := by
  have hroot : s.root? .query = some s.query := rfl
  exact h.root_found hroot

/-- The field that gives the schema is found at the root of queries. -/
theorem field?_schema (h : s.MadeOf ds) {t : NamedType} (ht : s.rootType? .query = some t) :
    s.field? t "__schema" = some MetaField.schema := by
  obtain ⟨t', ht', hname⟩ := h.query_found
  obtain rfl := Option.some.inj (ht.symm.trans ht')
  rw [Schema.field?, if_neg fun hmeta => absurd hmeta.1 (by decide), if_pos ⟨rfl, hname⟩]

/-- A place that is known as an object is one. -/
theorem exists_object (h : s.MadeOf ds) {place : Place} (hobject : place.isObject = true) :
    ∃ t, s.typeAt? place = some t ∧ t.kind = .object := by
  cases place with
  | queryRoot =>
    obtain ⟨t, ht, -⟩ := h.query_found
    exact ⟨_, ht, rfl⟩
  | type name =>
    cases hd : Place.definition? name with
    | none => rw [Place.isObject, hd] at hobject; exact nomatch hobject
    | some d =>
      rw [Place.isObject, hd] at hobject
      obtain ⟨hmem, rfl⟩ := Place.of_definition? hd
      obtain ⟨t, parts, ht, hassembled⟩ := h.introspection_held hmem
      exact ⟨t, ht, hassembled.kind.trans (of_decide_eq_true hobject)⟩

/-- A field that is known is found, with the arguments that are known. -/
theorem exists_field (h : s.MadeOf ds) {place : Place} {name : String} {known : KnownField}
    (hknown : place.field? name = some known) {t : NamedType} (ht : s.typeAt? place = some t) :
    ∃ f, s.field? t name = some f ∧ f.type.core.name = known.type ∧
      ∀ a ∈ known.arguments, a ∈ f.parameters.keys := by
  cases place with
  | queryRoot =>
    simp only [Place.field?] at hknown
    split at hknown
    next hname =>
      obtain rfl := Option.some.inj hknown
      subst hname
      exact ⟨_, h.field?_schema ht, MetaField.name_core_schema,
        fun a ha => absurd ha List.not_mem_nil⟩
    next => exact nomatch hknown
  | type typeName =>
    obtain ⟨d, hd, hknown⟩ := Option.bind_eq_some_iff.1 hknown
    obtain ⟨f, hf, hknown⟩ := Option.bind_eq_some_iff.1 hknown
    obtain rfl := Option.some.inj hknown
    obtain ⟨hmem, rfl⟩ := Place.of_definition? hd
    have hname := List.find?_some hf
    obtain rfl : f.name = name := of_decide_eq_true hname
    refine ⟨_, h.field?_introspection hmem ht (List.mem_of_find?_eq_some hf), ?_, fun a ha => ?_⟩
    · exact AnnotatedType.name_core_ofExpr _ f.type
    · obtain ⟨v, hv, rfl⟩ := List.mem_map.1 ha
      refine OrderedMap.mem_keys_ofList.2 (List.mem_map.2 ⟨_, List.mem_map_of_mem hv, rfl⟩)

/-- A schema that has been built offers what is known of the introspection types, and gives itself
at the root of queries. -/
theorem offers (h : s.MadeOf ds) : s.Offers where
  object place hobject := h.exists_object hobject
  field place name known hknown t ht := by
    obtain ⟨f, hf, htype, harguments⟩ := h.exists_field hknown ht
    -- whatever field is found resolves
    have hresolves : f.ResolvesIn s := by
      obtain ⟨typeName, htypeName⟩ : ∃ typeName, s.type? typeName = some t := by
        cases place with
        | queryRoot =>
          have hroot : s.rootType? .query = some t := ht
          obtain ⟨type, -, htype⟩ := Option.bind_eq_some_iff.1 hroot
          exact ⟨_, htype⟩
        | type typeName => exact ⟨typeName, ht⟩
      exact h.closed.lookups typeName t htypeName name f hf
    obtain ⟨r, hr, -⟩ := hresolves.type
    exact ⟨f, r, hf, hr, htype ▸ Schema.type?_core_of_resolve? hr, harguments⟩

end Schema.MadeOf

end GraphQLCheck
