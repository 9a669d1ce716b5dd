import GraphQLCheck.Proofs.Schema.WellFormed

/-!
# A schema that has been built refers to nothing that is missing

Looking up what a schema refers to may fail in principle: `Schema.resolve?` and `Schema.rootType?`
give nothing then, and `Schema.interfacesOf` and `Schema.membersOf` leave out what they do not find.
`Schema.Closed` says that nothing of this happens, and that what is found is of the right kind.

Main statements: a schema that is made of some definitions is closed (`Schema.MadeOf.closed`), and
so is every schema that is built of some sources (`closed_of_build`).
-/

namespace GraphQLCheck

/-- Whether an annotated type stands for a type that may be the type of an input. -/
def AnnotatedType.InputIn (s : Schema) (type : AnnotatedType) : Prop :=
  ∃ r, s.resolve? type = some r ∧ r.isInput = true

/-- Whether an annotated type stands for a type that may be the type of an output. -/
def AnnotatedType.OutputIn (s : Schema) (type : AnnotatedType) : Prop :=
  ∃ r, s.resolve? type = some r ∧ r.isOutput = true

/-- Whether the type of a field and those of its parameters can be used as they are. -/
structure FieldDef.ResolvesIn (s : Schema) (f : FieldDef) : Prop where
  type : f.type.OutputIn s
  parameters : ∀ p ∈ f.parameters.values, p.type.InputIn s

/-- Whether everything that a schema refers to is there, and of the kind that it has to be of. -/
structure Schema.Closed (s : Schema) : Prop where
  /-- The fields of every object and every interface resolve. -/
  fields : ∀ name t, s.type? name = some t → ∀ fields, t.fields? = some fields →
    ∀ f ∈ fields.values, f.ResolvesIn s
  /-- The fields of every input object are of input types. -/
  inputFields : ∀ name t, s.type? name = some (.inputObject t) →
    ∀ f ∈ t.fields.values, f.type.InputIn s
  /-- For each name of an interface that a type lists there is that interface, in order. -/
  interfaces : ∀ name t, s.type? name = some (.object t) ∨ s.type? name = some (.interface t) →
    List.Forall₂ (fun name i => i.name = name ∧ s.type? name = some (.interface i))
      t.interfaceNames (s.interfacesOf t)
  /-- For each name of a member that a union lists there is that object, in order. -/
  members : ∀ name t, s.type? name = some (.union t) →
    List.Forall₂ (fun name m => m.name = name ∧ m.kind = .object ∧ s.type? name = some m)
      t.members.keys (s.membersOf t)
  /-- The root of each kind of operation, if there is one, is an object. -/
  roots : ∀ kind r, s.root? kind = some r →
    ∃ t, s.rootType? kind = some (.object t) ∧ t.name = r.name
  /-- The fields that no type writes resolve. -/
  metaFields : ∀ f ∈ [MetaField.typename, MetaField.schema, MetaField.type], f.ResolvesIn s
  /-- Whatever field is found on a type resolves. -/
  lookups : ∀ typeName t, s.type? typeName = some t → ∀ name f, s.field? t name = some f →
    f.ResolvesIn s

section Resolve

variable {s : Schema}

/-- An annotated type resolves to the type at its core, if that type is defined. -/
theorem Schema.exists_resolve? {type : AnnotatedType} {t : NamedType}
    (h : s.type? type.core.name = some t) : ∃ r, s.resolve? type = some r ∧ r.core = t := by
  induction type with
  | named r nullable =>
    rw [AnnotatedType.core] at h
    rw [Schema.resolve?, h]
    exact ⟨_, rfl, rfl⟩
  | list item nullable location ih =>
    obtain ⟨r, hr, hcore⟩ := ih h
    rw [Schema.resolve?, hr]
    exact ⟨_, rfl, hcore⟩

/-- What an annotated type resolves to has the type at its core that is defined. -/
theorem Schema.type?_core_of_resolve? {type : AnnotatedType} {r : TypeRef}
    (h : s.resolve? type = some r) : s.type? type.core.name = some r.core := by
  induction type generalizing r with
  | named reference nullable =>
    obtain ⟨t, ht, rfl⟩ := Option.map_eq_some_iff.1 h
    exact ht
  | list item nullable location ih =>
    obtain ⟨r', hr, rfl⟩ := Option.map_eq_some_iff.1 h
    have hcore := ih hr
    exact hcore

/-- An annotated type resolves to a type of an allowed kind if its core stands for one. -/
theorem Schema.exists_resolve?_of_hasKind {type : AnnotatedType} {allowed : TypeKind → Bool}
    (h : ∃ kind, s.types.HasKind type.core.name kind ∧ allowed kind = true) :
    ∃ r, s.resolve? type = some r ∧ allowed r.core.kind = true := by
  obtain ⟨_, ⟨t, ht, rfl⟩, hallowed⟩ := h
  have hget : s.type? type.core.name = some t := ht
  obtain ⟨r, hr, rfl⟩ := Schema.exists_resolve? hget
  exact ⟨r, hr, hallowed⟩

/-- An annotated type can be used for an input if its core stands for a type of an input. -/
theorem AnnotatedType.inputIn_of_standsFor {type : AnnotatedType}
    (h : StandsForInput s.types.HasKind type.core.name) : type.InputIn s := by
  obtain ⟨r, hr, hinput⟩ := Schema.exists_resolve?_of_hasKind h
  rw [← NamedType.isInput_eq] at hinput
  exact ⟨r, hr, hinput⟩

/-- What stands for an input has a type of an input at its core. -/
theorem AnnotatedType.inputIn_iff {type : AnnotatedType} :
    type.InputIn s ↔ StandsForInput s.types.HasKind type.core.name := by
  refine ⟨fun ⟨r, hr, hinput⟩ => ?_, inputIn_of_standsFor⟩
  refine ⟨r.core.kind, ⟨r.core, Schema.type?_core_of_resolve? hr, rfl⟩, ?_⟩
  rw [← NamedType.isInput_eq]
  exact hinput

/-- An annotated type can be used for an output if its core stands for a type of an output. -/
theorem AnnotatedType.outputIn_of_standsFor {type : AnnotatedType}
    (h : StandsForOutput s.types.HasKind type.core.name) : type.OutputIn s := by
  obtain ⟨r, hr, houtput⟩ := Schema.exists_resolve?_of_hasKind h
  rw [← NamedType.isOutput_eq] at houtput
  exact ⟨r, hr, houtput⟩

/-- A field resolves if it refers to other types as it may. -/
theorem FieldDef.resolvesIn_of_resolves {f : FieldDef} {name : String}
    (h : (MemberDef.field f).Resolves s.types.HasKind name) : f.ResolvesIn s where
  type := AnnotatedType.outputIn_of_standsFor h.1
  parameters p hp := AnnotatedType.inputIn_of_standsFor (h.2 p hp)

/-- A meta-field resolves if the type that it is given and those of its parameters do. -/
theorem MetaField.make_resolvesIn {name type : String} {parameters : List InputDef}
    (htype : StandsForOutput s.types.HasKind (AnnotatedType.builtIn type).core.name)
    (hparameters : ∀ p ∈ parameters, StandsForInput s.types.HasKind p.type.core.name) :
    (MetaField.make name type parameters).ResolvesIn s where
  type := AnnotatedType.outputIn_of_standsFor htype
  parameters p hp := by
    obtain ⟨e, he, rfl⟩ := List.mem_map.1 hp
    obtain ⟨p, hmem, rfl⟩ := List.mem_map.1 (OrderedMap.entries_ofList_subset _ he)
    exact AnnotatedType.inputIn_of_standsFor (hparameters p hmem)

/-- A field that is found on a type is a meta-field, or one that the type writes. -/
theorem Schema.field?_cases {t : NamedType} {name : String} {f : FieldDef}
    (h : s.field? t name = some f) :
    f ∈ [MetaField.typename, MetaField.schema, MetaField.type] ∨
      ∃ fields, t.fields? = some fields ∧ fields.get? name = some f := by
  unfold Schema.field? at h
  -- the meta-fields are looked for first, each under its own name
  split at h
  · exact .inl (by simp [Option.some.inj h])
  split at h
  · exact .inl (by simp [Option.some.inj h])
  split at h
  · exact .inl (by simp [Option.some.inj h])
  · exact .inr (Option.bind_eq_some_iff.1 h)

end Resolve

/-- Where every element has an image, leaving out those without one leaves out nothing. -/
theorem forall₂_filterMap {α β γ : Type} {f : α → Option β} {g : α → γ} {R : γ → β → Prop}
    {xs : List α} (h : ∀ x ∈ xs, ∃ y, f x = some y ∧ R (g x) y) :
    List.Forall₂ R (xs.map g) (xs.filterMap f) := by
  induction xs with
  | nil => exact .nil
  | cons x xs ih =>
    obtain ⟨hx, hxs⟩ := List.forall_mem_cons.1 h
    obtain ⟨y, hy, hR⟩ := hx
    rw [List.map_cons, List.filterMap_cons_some hy]
    exact .cons hR (ih hxs)

/-- A union lists a member under the name that it refers to. -/
theorem Part.name_of_mem_entries {part : Part} {name : String} {r : TypeReference}
    (h : (name, .member r) ∈ part.entries) : r.name = name :=
  namedBy_of_mem_entries h

namespace TypesHeld

variable {defs : List (Path × TypeSystem.TypeDefinition)}
  {es : List (Path × TypeSystem.TypeExtension)} {types : TypeMap}

/-- A type is held under its own name. -/
theorem name_of_get? (h : TypesHeld defs es types) {name : String} {t : NamedType}
    (ht : types.get? name = some t) : t.name = name := by
  rcases h.cases ht with ⟨s, rfl, rfl⟩ | ⟨d, -, rfl, hassembled⟩
  · rfl
  · exact hassembled.name

/-- A member of a union that is held refers to the name under which it is listed. -/
theorem name_of_mem_members (h : TypesHeld defs es types) {union : String} {t : UnionType}
    (ht : types.get? union = some (.union t)) {name : String} {r : TypeReference}
    (hr : (name, r) ∈ t.members.entries) : r.name = name := by
  have hentry : (name, MemberDef.member r) ∈ (NamedType.union t).entries :=
    List.mem_map.2 ⟨(name, r), hr, rfl⟩
  rcases h.cases ht with ⟨s, -, hs⟩ | ⟨d, -, -, hassembled⟩
  · exact nomatch hs
  · -- the entry comes from some part of the union
    rw [hassembled.entries] at hentry
    obtain ⟨part, -, hpart⟩ := List.mem_flatMap.1 hentry
    exact Part.name_of_mem_entries hpart

end TypesHeld

namespace Schema.MadeOf

variable {s : Schema} {ds : List WrittenDefinition}

/-- Every type of the schema refers to others as it may. -/
theorem refers (h : s.MadeOf ds) {name : String} {t : NamedType} (ht : s.type? name = some t) :
    (∀ r ∈ t.interfaces, s.types.HasKind r.name .interface) ∧
      ∀ e ∈ t.entries, e.2.Resolves s.types.HasKind e.1 := by
  obtain ⟨hinterfaces, hentries, -⟩ := TypeMap.referenceErrors_eq_nil_iff.1 h.references name t ht
  exact ⟨hinterfaces, hentries⟩

/-- The fields of objects and interfaces resolve. -/
theorem fields_resolve (h : s.MadeOf ds) {name : String} {t : NamedType}
    (ht : s.type? name = some t) {fields : OrderedMap FieldDef} (hfields : t.fields? = some fields)
    {f : FieldDef} (hf : f ∈ fields.values) : f.ResolvesIn s := by
  obtain ⟨⟨key, f⟩, hmem, rfl⟩ := List.mem_map.1 hf
  have hget : fields.get? key = some f := OrderedMap.get?_eq_some_iff.2 hmem
  have hentry : (key, MemberDef.field f) ∈ t.entries :=
    NamedType.mem_entries_field_iff.2 ⟨fields, hfields, hget⟩
  obtain ⟨-, hentries⟩ := h.refers ht
  exact FieldDef.resolvesIn_of_resolves (hentries _ hentry)

/-- The interfaces that an object or an interface lists are found, one for each name. -/
theorem interfaces_found (h : s.MadeOf ds) {name : String} {t : FieldedType}
    (ht : s.type? name = some (.object t) ∨ s.type? name = some (.interface t)) :
    List.Forall₂ (fun name i => i.name = name ∧ s.type? name = some (.interface i))
      t.interfaceNames (s.interfacesOf t) := by
  have hkinds : ∀ r ∈ t.interfaces, s.types.HasKind r.name .interface := by
    rcases ht with ht | ht
    · exact (h.refers ht).1
    · exact (h.refers ht).1
  apply forall₂_filterMap
  intro r hr
  obtain ⟨i, hi, hkind⟩ := hkinds r hr
  have hname := h.types.name_of_get? hi
  cases i with
  | interface i =>
    have hget : s.type? r.name = some (.interface i) := hi
    refine ⟨i, ?_, hname, hget⟩
    rw [hget]
  | _ => exact nomatch hkind

/-- The members that a union lists are found, one for each name. -/
theorem members_found (h : s.MadeOf ds) {name : String} {t : UnionType}
    (ht : s.type? name = some (.union t)) :
    List.Forall₂ (fun name m => m.name = name ∧ m.kind = .object ∧ s.type? name = some m)
      t.members.keys (s.membersOf t) := by
  obtain ⟨-, hentries⟩ := h.refers ht
  rw [Schema.membersOf, OrderedMap.keys, OrderedMap.values, List.filterMap_map]
  apply forall₂_filterMap
  rintro ⟨key, r⟩ hr
  obtain ⟨m, hm, hkind⟩ := hentries (key, .member r) (List.mem_map.2 ⟨_, hr, rfl⟩)
  -- the check looks under the key, and the schema under the name that is referred to
  have hkey : r.name = key := h.types.name_of_mem_members ht hr
  refine ⟨m, ?_, h.types.name_of_get? hm, hkind, hm⟩
  show s.types.get? r.name = some m
  rw [hkey]
  exact hm

/-- The root of a kind of operation is an object. -/
theorem root_found (h : s.MadeOf ds) {kind : OperationKind} {r : TypeReference}
    (hr : s.root? kind = some r) : ∃ t, s.rootType? kind = some (.object t) ∧ t.name = r.name := by
  have hobject : s.types.HasKind r.name .object := by
    by_cases hdeclared : ∃ d, (kind, d) ∈ rootsIn ds
    · obtain ⟨d, hd⟩ := hdeclared
      obtain ⟨hkind, hroot⟩ := h.declared kind d hd
      obtain rfl := Option.some.inj (hr.symm.trans hroot)
      exact hkind
    · -- a root that is not declared has been found under the default name
      have hok := h.undeclared kind fun d hd => hdeclared ⟨d, hd⟩
      obtain ⟨t, ht, hkind, rfl⟩ := (Builder.eq_some_iff_of_resolveRoot_none hok).1 hr
      exact ⟨t, ht, hkind⟩
  obtain ⟨t, ht, hkind⟩ := hobject
  have hname := h.types.name_of_get? ht
  cases t with
  | object t =>
    refine ⟨t, ?_, hname⟩
    rw [Schema.rootType?, hr]
    exact ht
  | _ => exact nomatch hkind

/-- The types that the meta-fields refer to are always defined. -/
theorem metaFields_resolve (h : s.MadeOf ds) {f : FieldDef}
    (hf : f ∈ [MetaField.typename, MetaField.schema, MetaField.type]) : f.ResolvesIn s := by
  have hstring : s.types.HasKind "String" .scalar := ⟨_, h.types.builtIn .string, rfl⟩
  -- what the introspection source defines is defined whatever comes before it
  have hintrospection {name : String} {kind : TypeKind} (hdefined : DefinedAs (withIntrospection [])
      name kind) : s.types.HasKind name kind := by
    refine (h.types.hasKind_iff name kind).2 (hdefined.imp_right ?_)
    rintro ⟨d, hd, hname⟩
    refine ⟨d, ?_, hname⟩
    rw [withIntrospection, typesIn_append]
    exact List.mem_append_right _ hd
  have hschema : s.types.HasKind "__Schema" .object := hintrospection (by decide +kernel)
  have htype : s.types.HasKind "__Type" .object := hintrospection (by decide +kernel)
  -- the types of meta-fields are given as texts, which are read here
  have hstringCore : (AnnotatedType.builtIn "String!").core.name = "String" := by decide +kernel
  have hschemaCore : (AnnotatedType.builtIn "__Schema!").core.name = "__Schema" := by
    decide +kernel
  have htypeCore : (AnnotatedType.builtIn "__Type").core.name = "__Type" := by decide +kernel
  simp only [List.mem_cons, List.not_mem_nil, or_false] at hf
  rcases hf with rfl | rfl | rfl
  · refine MetaField.make_resolvesIn ?_ fun _ hp => absurd hp List.not_mem_nil
    rw [hstringCore]
    exact ⟨.scalar, hstring, rfl⟩
  · refine MetaField.make_resolvesIn ?_ fun _ hp => absurd hp List.not_mem_nil
    rw [hschemaCore]
    exact ⟨.object, hschema, rfl⟩
  · refine MetaField.make_resolvesIn ?_ fun p hp => ?_
    · rw [htypeCore]
      exact ⟨.object, htype, rfl⟩
    · obtain rfl := List.mem_singleton.1 hp
      show StandsForInput _ (AnnotatedType.builtIn "String!").core.name
      rw [hstringCore]
      exact ⟨.scalar, hstring, rfl⟩

/-- A schema that is made of some definitions is closed. -/
theorem closed (h : s.MadeOf ds) : s.Closed where
  fields _ _ ht _ hfields _ hf := h.fields_resolve ht hfields hf
  inputFields name t ht f hf := by
    obtain ⟨-, hentries⟩ := h.refers ht
    obtain ⟨⟨key, f⟩, hmem, rfl⟩ := List.mem_map.1 hf
    have hinput := hentries (key, .inputField f) (List.mem_map.2 ⟨_, hmem, rfl⟩)
    exact AnnotatedType.inputIn_of_standsFor hinput
  interfaces _ _ ht := h.interfaces_found ht
  members _ _ ht := h.members_found ht
  roots _ _ hr := h.root_found hr
  metaFields _ hf := h.metaFields_resolve hf
  lookups typeName t ht name f hf := by
    rcases Schema.field?_cases hf with hmeta | ⟨fields, hfields, hget⟩
    · exact h.metaFields_resolve hmeta
    · have hmem : f ∈ fields.values := List.mem_map.2 ⟨_, OrderedMap.get?_eq_some_iff.1 hget, rfl⟩
      exact h.fields_resolve ht hfields hmem

end Schema.MadeOf

/-- A source that can be read is loaded definition by definition. -/
theorem Builder.load_of_read {source : String} {doc : TypeSystem.Document}
    (hdoc : TypeSystem.Document.read source = .ok doc) (b : Builder) (path : Option Path) :
    b.load path source = (doc.definitions.map fun d => ((b.takePath path).1, d)).foldlM
      (fun b x => b.addDefinition x.1 x.2) (b.takePath path).2 := by
  unfold Builder.load
  simp only [hdoc, Builder.addDefinitions_eq]

/-- A source that is loaded can be read, and leaves the builder with what it writes, under the path
that is taken for it, on top of what has been loaded before. -/
theorem Loaded.load {ds : List WrittenDefinition} {b b' : Builder} (h : Loaded ds b)
    {path : Option Path} {source : String} (hok : b.load path source = .ok b') :
    ∃ doc, TypeSystem.Document.read source = .ok doc ∧
      Loaded (ds ++ doc.definitions.map fun d => ((b.takePath path).1, d)) b' := by
  -- taking the path counts sources only
  have htaken : Loaded ds (b.takePath path).2 := by
    cases path with
    | some path => exact h
    | none =>
      have hroots : RootsHeld (rootsIn ds) (b.takePath none).2 := ⟨h.roots.once, h.roots.declared⟩
      exact ⟨h.types, h.pending, h.directives, hroots, h.rootTypes, h.names⟩
  cases hdoc : TypeSystem.Document.read source with
  | error place =>
    unfold Builder.load at hok
    simp only [hdoc] at hok
    exact nomatch hok
  | ok doc =>
    rw [Builder.load_of_read hdoc] at hok
    exact ⟨doc, rfl, htaken.foldlM hok⟩

/-- Loading a source keeps that the builder holds what has been loaded. -/
theorem Builder.exists_loaded_of_load {b b' : Builder} (h : ∃ ds, Loaded ds b)
    {path : Option Path} {source : String} (hok : b.load path source = .ok b') :
    ∃ ds, Loaded ds b' := by
  obtain ⟨ds, h⟩ := h
  obtain ⟨doc, -, h'⟩ := h.load hok
  exact ⟨_, h'⟩

/-- Loading a file keeps it too. -/
theorem Builder.exists_loaded_of_loadFile {b b' : Builder} (h : ∃ ds, Loaded ds b)
    {fs : FileSystem} {path : Path} (hok : b.loadFile fs path = .ok b') : ∃ ds, Loaded ds b' := by
  unfold Builder.loadFile at hok
  cases hread : fs.readText path with
  | error e => rw [hread] at hok; exact nomatch hok
  | ok source => rw [hread] at hok; exact exists_loaded_of_load h hok

/-- Whatever sources a schema is built of, everything that it refers to is there, and of the kind
that it has to be of. -/
theorem closed_of_build (sources : List (Option Path × String)) {s : Schema}
    (hbuild : (sources.foldlM (fun b source => b.load source.1 source.2) Builder.empty >>=
      Builder.build) = .ok s) : s.Closed := by
  obtain ⟨b, hload, hbuild⟩ := bind_eq_ok.1 hbuild
  have hstep {b b' : Builder} {source : Option Path × String} (hb : ∃ ds, Loaded ds b)
      (hok : b.load source.1 source.2 = .ok b') : ∃ ds, Loaded ds b' :=
    Builder.exists_loaded_of_load hb hok
  obtain ⟨ds, hb⟩ := foldlM_preserves hstep ⟨[], Loaded.empty⟩ hload
  exact (Schema.MadeOf.of_build hb hbuild).closed

/-- A source whose types refer to one another, and extend a type before it is defined. -/
def nodesSource : String :=
  "extend type Query \x7b f(x: Int): Node \x7d interface Node \x7b id: ID \x7d
type Query implements Node \x7b id: ID \x7d"

/-- The path of that source. -/
def nodesPath : Path := ⟨"nodes.graphql"⟩

/-- That source can be read, and what it writes makes up a schema. -/
private theorem any_read_nodesSource :
    (TypeSystem.Document.read nodesSource).toOption.any (fun doc =>
      decide (WellFormed (doc.definitions.map fun d => (nodesPath, d)))) = true := by
  decide +kernel

/-- A schema can be built of that source, and is closed. -/
theorem closed_of_build_nodesSource :
    ∃ s, ([(some nodesPath, nodesSource)].foldlM (fun b source => b.load source.1 source.2)
      Builder.empty >>= Builder.build) = .ok s ∧ s.Closed := by
  have hpath : nodesPath.same Introspection.path = false := by decide +kernel
  obtain ⟨doc, hdoc, hwellFormed⟩ : ∃ doc, TypeSystem.Document.read nodesSource = .ok doc ∧
      WellFormed (doc.definitions.map fun d => (nodesPath, d)) := by
    have hread := any_read_nodesSource
    generalize TypeSystem.Document.read nodesSource = result at hread ⊢
    cases result with
    | error place => exact nomatch hread
    | ok doc => exact ⟨doc, rfl, of_decide_eq_true hread⟩
  obtain ⟨b, s, hload, hbuild⟩ := hwellFormed.exists_build (List.forall_mem_map.2 fun _ _ => hpath)
  have hok : ([(some nodesPath, nodesSource)].foldlM (fun b source => b.load source.1 source.2)
      Builder.empty >>= Builder.build) = .ok s := by
    refine bind_eq_ok.2 ⟨b, ?_, hbuild⟩
    rw [List.foldlM_cons, Builder.load_of_read hdoc]
    exact bind_eq_ok.2 ⟨b, hload, rfl⟩
  exact ⟨s, hok, closed_of_build _ hok⟩

end GraphQLCheck
