import GraphQLCheck.Proofs.Schema.Buildable

/-!
# The schemas that can be built

`WellFormed` says when definitions, in whatever order and from whatever sources, make up a schema.
It comes to the same as `Buildable` as long as no source has the path of the introspection types,
but says of each name what it may be.

Main statement: loading some sources and building a schema of them succeeds just if what they write
is well-formed (`build_ok_iff_wellFormed`).
-/

namespace GraphQLCheck

/-- Whether some definitions make up a schema, together with the introspection types. -/
@[mk_iff]
structure WellFormed (ds : List WrittenDefinition) : Prop where
  /-- The names of types are different from one another and from those of the built-in scalars. -/
  typeNames : (builtInNames ++ typeNamesIn (withIntrospection ds)).Nodup
  /-- Only introspection types have reserved names. -/
  typesUnreserved : ∀ name ∈ typeNamesIn ds, isReservedName name = false
  /-- Each extension is of a type that is defined, and of the same kind. -/
  extended : ∀ e ∈ extensionsIn (withIntrospection ds), ∃ d ∈ typesIn (withIntrospection ds),
    d.2.name = e.2.name ∧ d.2.body.kind = e.2.body.kind
  /-- The definition of each type and all its extensions go together. -/
  merge : AllMerge (typesIn (withIntrospection ds)) (extensionsIn (withIntrospection ds))
  /-- The names of directives are different from one another and from the built-in ones. -/
  directiveNames : (DirectiveDef.builtIns.map DirectiveDef.name ++
    (directivesIn ds).map fun d => d.2.name).Nodup
  /-- No directive has a reserved name. -/
  directivesUnreserved : ∀ d ∈ directivesIn ds, isReservedName d.2.name = false
  /-- No kind of operation has its root declared twice. -/
  rootKinds : ((rootsIn ds).map Prod.fst).Nodup
  /-- The roots that are declared are different from one another. -/
  rootTypes : ((rootsIn ds).map fun r => r.2.type).Nodup
  /-- The roots that are declared are objects. -/
  rootObjects : ∀ r ∈ rootsIn ds, DefinedAs (withIntrospection ds) r.2.type .object
  /-- There is a root for queries. -/
  query : (∃ r, (.query, r) ∈ rootsIn ds) ∨
    DefinedAs (withIntrospection ds) OperationKind.query.defaultTypeName .object
  /-- No enum is without values, its extensions included. -/
  values : ∀ d ∈ typesIn (withIntrospection ds), d.2.body.kind = .enum →
    (bodiesOf d.2 (extensionsIn (withIntrospection ds))).flatMap TypeSystem.Body.memberNames ≠ []
  /-- All types refer to others as they may. -/
  references : ∀ d ∈ typesIn (withIntrospection ds),
    ∀ body ∈ bodiesOf d.2 (extensionsIn (withIntrospection ds)),
      body.Resolves (DefinedAs (withIntrospection ds))

/-- Whether a root is declared for a kind of operation is decidable. -/
instance (kind : OperationKind) (rs : List (OperationKind × RootDeclaration)) :
    Decidable (∃ r, (kind, r) ∈ rs) :=
  decidable_of_iff (kind ∈ rs.map Prod.fst) (by simp)

/-- Whether definitions make up a schema is decidable. -/
instance (ds : List WrittenDefinition) : Decidable (WellFormed ds) :=
  decidable_of_iff _ (wellFormed_iff ds).symm

/-- What is written in some sources, each a path with the definitions that are written there. -/
def writtenIn (sources : List (Path × List TypeSystem.Definition)) : List WrittenDefinition :=
  sources.flatMap fun source => source.2.map fun d => (source.1, d)

/-- Sources are taken one after the other. -/
theorem foldlM_addDefinitions (sources : List (Path × List TypeSystem.Definition)) (b : Builder) :
    sources.foldlM (fun b source => b.addDefinitions source.1 source.2) b =
      (writtenIn sources).foldlM (fun b x => b.addDefinition x.1 x.2) b := by
  induction sources generalizing b with
  | nil => rfl
  | cons source sources ih =>
    rw [List.foldlM_cons, writtenIn, List.flatMap_cons, List.foldlM_append,
      Builder.addDefinitions_eq]
    congr 1
    funext b
    exact ih b

/-- Only types of the introspection source have reserved names, if no other source has its path. -/
theorem nameAllowed_type_iff {path : Path} (d : TypeSystem.TypeDefinition)
    (hpath : path.same Introspection.path = false) :
    WrittenDefinition.NameAllowed (path, .type d) ↔ isReservedName d.name = false := by
  rw [WrittenDefinition.NameAllowed, hpath, Bool.not_false, Bool.and_true]

/-- No directive that is defined has the name of a built-in one if all names are different. -/
theorem any_builtIns_eq_false_iff (name : String) :
    DirectiveDef.builtIns.any (·.name = name) = false ↔
      name ∉ DirectiveDef.builtIns.map DirectiveDef.name := by
  rw [List.any_eq_false, List.mem_map]
  simp only [decide_eq_true_eq, not_exists, not_and]

namespace WellFormed

variable {ds : List WrittenDefinition}

/-- What is written in a schema may have its name. -/
theorem nameAllowed (h : WellFormed ds) (hpaths : ∀ x ∈ ds, x.1.same Introspection.path = false)
    {x : WrittenDefinition} (hx : x ∈ withIntrospection ds) : x.NameAllowed := by
  obtain ⟨path, d⟩ := x
  rcases List.mem_append.1 hx with hx | hx
  · cases d with
    | type d =>
      refine (nameAllowed_type_iff d (hpaths _ hx)).2 (h.typesUnreserved d.name ?_)
      exact List.mem_map.2 ⟨(path, d), mem_typesIn.2 hx, rfl⟩
    | directive d =>
      have hmem := mem_directivesIn.2 hx
      refine ⟨(any_builtIns_eq_false_iff d.name).2 fun hbuiltIn => ?_,
        h.directivesUnreserved (path, d) hmem⟩
      exact (List.nodup_append.1 h.directiveNames).2.2 _ hbuiltIn _
        (List.mem_map.2 ⟨_, hmem, rfl⟩) rfl
    | schema _ | extension _ => trivial
  · -- what comes from the introspection source is a type, and may have any name
    obtain ⟨d', hd', heq⟩ := List.mem_map.1 hx
    obtain ⟨rfl, rfl⟩ := Prod.mk.inj heq
    obtain ⟨d, -, rfl⟩ := List.mem_map.1 hd'
    have hsame : Introspection.path.same Introspection.path = true := decide_eq_true rfl
    rw [WrittenDefinition.NameAllowed, hsame, Bool.not_true, Bool.and_false]

/-- Definitions that make up a schema are compatible with one another. -/
theorem compatible (h : WellFormed ds) (hpaths : ∀ x ∈ ds, x.1.same Introspection.path = false) :
    Compatible (withIntrospection ds) where
  names _ hx := h.nameAllowed hpaths hx
  types := h.typeNames
  custom e he hbuiltIn := by
    obtain ⟨d, hd, hname, -⟩ := h.extended e he
    exact (List.nodup_append.1 h.typeNames).2.2 _ hbuiltIn _ (List.mem_map.2 ⟨d, hd, hname⟩) rfl
  merge := h.merge
  directives := by
    rw [directivesIn_withIntrospection]
    exact (List.nodup_append.1 h.directiveNames).2.1
  roots := by
    rw [rootsIn_withIntrospection]
    exact h.rootKinds
  rootTypes := by
    rw [rootsIn_withIntrospection]
    exact h.rootTypes

/-- A schema can be built of definitions that are well-formed. -/
theorem buildable (h : WellFormed ds) (hpaths : ∀ x ∈ ds, x.1.same Introspection.path = false) :
    Buildable ds where
  compatible := h.compatible hpaths
  extended e he := by
    obtain ⟨d, hd, hname, -⟩ := h.extended e he
    exact List.mem_map.2 ⟨d, hd, hname⟩
  rootObjects := h.rootObjects
  query := h.query
  references d hd := ⟨h.references d hd, h.values d hd⟩

/-- Definitions that make up a schema can be loaded, and then the schema can be built. -/
theorem exists_build (h : WellFormed ds)
    (hpaths : ∀ x ∈ ds, x.1.same Introspection.path = false) :
    ∃ b s, ds.foldlM (fun b x => b.addDefinition x.1 x.2) Builder.empty = .ok b ∧
      b.build = .ok s :=
  (h.buildable hpaths).exists_build

/-- Definitions of which a schema can be built are well-formed, if no source has the path of the
introspection types. -/
theorem of_buildable (h : Buildable ds) (hpaths : ∀ x ∈ ds, x.1.same Introspection.path = false) :
    WellFormed ds := by
  have hnames : ∀ x ∈ ds, x.NameAllowed := h.compatible.left.names
  -- each condition is one of those under which a schema can be built, or says more of the names
  refine
    { typeNames := h.compatible.types
      typesUnreserved := ?typesUnreserved
      extended := ?extended
      merge := h.compatible.merge
      directiveNames := ?directiveNames
      directivesUnreserved := fun d hd => (hnames _ (mem_directivesIn.1 hd)).2
      rootKinds := h.compatible.left.roots
      rootTypes := h.compatible.left.rootTypes
      rootObjects := h.rootObjects
      query := h.query
      values := fun d hd => (h.references d hd).2
      references := fun d hd => (h.references d hd).1 }
  case typesUnreserved =>
    intro name hname
    obtain ⟨⟨path, d⟩, hd, rfl⟩ := List.mem_map.1 hname
    have hmem := mem_typesIn.1 hd
    exact (nameAllowed_type_iff d (hpaths _ hmem)).1 (hnames _ hmem)
  case extended =>
    intro e he
    obtain ⟨d, hd, hname⟩ := List.mem_map.1 (h.extended e he)
    refine ⟨d, hd, hname, ((h.compatible.merge d hd).kinds e.2.body ?_).symm⟩
    refine List.mem_cons_of_mem _ (List.mem_map.2 ⟨e, List.mem_filter.2 ⟨he, ?_⟩, rfl⟩)
    exact decide_eq_true hname.symm
  case directiveNames =>
    refine List.nodup_append.2 ⟨by decide, h.compatible.left.directives, ?_⟩
    rintro name hbuiltIn _ hname rfl
    obtain ⟨d, hd, rfl⟩ := List.mem_map.1 hname
    exact (any_builtIns_eq_false_iff _).1 (hnames _ (mem_directivesIn.1 hd)).1 hbuiltIn

/-- Definitions of which a schema has been built make up a schema. -/
theorem of_build (hpaths : ∀ x ∈ ds, x.1.same Introspection.path = false) {b : Builder} {s : Schema}
    (hload : ds.foldlM (fun b x => b.addDefinition x.1 x.2) Builder.empty = .ok b)
    (hbuild : b.build = .ok s) : WellFormed ds :=
  of_buildable (.of_build (Loaded.empty.foldlM hload) hbuild) hpaths

end WellFormed

/-- Two sources, the first of which extends a type that the second defines. -/
def splitQuery : List (Path × List TypeSystem.Definition) :=
  let field (name : String) : TypeSystem.Field := ⟨.start, none, name, [], .named "Int"⟩
  [(⟨"extensions.graphql"⟩, [.extension ⟨.start, "Query", .object [] [field "g"]⟩]),
    (⟨"types.graphql"⟩, [.type ⟨.start, none, "Query", .object [] [field "f"]⟩])]

/-- Loading sources, none of which has the path of the introspection types, and building a schema
succeeds just if what they write, together with the introspection types, is well-formed. -/
theorem build_ok_iff_wellFormed (sources : List (Path × List TypeSystem.Definition))
    (hpaths : ∀ source ∈ sources, source.1.same Introspection.path = false) :
    (∃ s, (sources.foldlM (fun b source => b.addDefinitions source.1 source.2) Builder.empty >>=
      Builder.build) = .ok s) ↔ WellFormed (writtenIn sources) := by
  have hwritten : ∀ x ∈ writtenIn sources, x.1.same Introspection.path = false := by
    intro x hx
    obtain ⟨source, hsource, hx⟩ := List.mem_flatMap.1 hx
    obtain ⟨d, -, rfl⟩ := List.mem_map.1 hx
    exact hpaths source hsource
  rw [foldlM_addDefinitions]
  constructor
  · rintro ⟨s, h⟩
    obtain ⟨b, hload, hbuild⟩ := bind_eq_ok.1 h
    exact .of_build hwritten hload hbuild
  · intro h
    obtain ⟨b, s, hload, hbuild⟩ := h.exists_build hwritten
    exact ⟨s, bind_eq_ok.2 ⟨b, hload, hbuild⟩⟩

/-- A type can be extended in a source that is loaded before the one that defines it. -/
theorem build_ok_iff_wellFormed_splitQuery :
    (∀ source ∈ splitQuery, source.1.same Introspection.path = false) ∧
      ∃ s, (splitQuery.foldlM (fun b source => b.addDefinitions source.1 source.2) Builder.empty >>=
        Builder.build) = .ok s := by
  have hpaths : ∀ source ∈ splitQuery, source.1.same Introspection.path = false := by
    decide +kernel
  refine ⟨hpaths, (build_ok_iff_wellFormed splitQuery hpaths).2 ?_⟩
  decide +kernel

end GraphQLCheck
