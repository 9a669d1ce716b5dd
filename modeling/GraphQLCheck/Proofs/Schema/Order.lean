import GraphQLCheck.Proofs.Schema.WellFormed

/-!
# The order of definitions does not matter

A builder takes an extension in different ways, depending on whether the type that it extends has
been defined, and it finds that a name is given twice only when it comes to the second definition.
What can be built depends on none of this: `Buildable` and `Schema.MadeOf` speak of definitions in
any order.

Main statements: definitions in another order are buildable too (`Buildable.perm`), the schemas that
are made of them agree (`Schema.MadeOf.agrees`), and so building a schema comes to the same in any
order of definitions (`ofDefinitions_perm`).
-/

namespace GraphQLCheck

/-- Whether two types are the same but for the order of their members and of their interfaces. -/
structure NamedType.Agrees (t t' : NamedType) : Prop where
  kind : t'.kind = t.kind
  name : t'.name = t.name
  location : t'.location = t.location
  description : t'.description = t.description
  entries : t.entries.Perm t'.entries
  interfaces : t.interfaces.Perm t'.interfaces

/-- Whether two schemas have the same roots, directives and types, where the types agree. -/
structure Schema.Agrees (s s' : Schema) : Prop where
  query : s'.query = s.query
  mutation : s'.mutation = s.mutation
  subscription : s'.subscription = s.subscription
  directives : ∀ name, s'.directive? name = s.directive? name
  types : ∀ name, Option.Rel NamedType.Agrees (s.type? name) (s'.type? name)

/-- A type agrees with itself. -/
theorem NamedType.Agrees.refl (t : NamedType) : t.Agrees t := ⟨rfl, rfl, rfl, rfl, .rfl, .rfl⟩

section Views

variable {ds ds' : List WrittenDefinition} (h : ds.Perm ds')

include h

/-- The introspection types come after the definitions in any order. -/
theorem withIntrospection_perm : (withIntrospection ds).Perm (withIntrospection ds') :=
  h.append_right _

/-- The definitions of types do not depend on the order. -/
theorem typesIn_perm : (typesIn ds).Perm (typesIn ds') := h.filterMap _

/-- The names of the types do not depend on the order. -/
theorem typeNamesIn_perm : (typeNamesIn ds).Perm (typeNamesIn ds') := (typesIn_perm h).map _

/-- The extensions do not depend on the order. -/
theorem extensionsIn_perm : (extensionsIn ds).Perm (extensionsIn ds') := h.filterMap _

/-- The definitions of directives do not depend on the order. -/
theorem directivesIn_perm : (directivesIn ds).Perm (directivesIn ds') := h.filterMap _

/-- The roots that are declared do not depend on the order. -/
theorem rootsIn_perm : (rootsIn ds).Perm (rootsIn ds') := h.flatMap_right _

/-- The extensions are merged in another order if they are written in another order, but the same
extensions are merged. -/
theorem mergedExtensions_perm_of_perm : (mergedExtensions ds).Perm (mergedExtensions ds') :=
  (mergedExtensions_perm ds).trans ((extensionsIn_perm h).trans (mergedExtensions_perm ds').symm)

/-- What a name stands for does not depend on the order. -/
theorem definedAs_eq_of_perm : DefinedAs ds = DefinedAs ds' := by
  funext name kind
  unfold DefinedAs
  simp only [(typesIn_perm h).mem_iff]

/-- Whether definitions agree with one another does not depend on the order. -/
theorem Compatible.perm (hcompatible : Compatible ds) : Compatible ds' where
  names x hx := hcompatible.names x (h.mem_iff.2 hx)
  types := ((typeNamesIn_perm h).append_left _).nodup_iff.1 hcompatible.types
  custom e he := hcompatible.custom e ((extensionsIn_perm h).mem_iff.2 he)
  merge := (hcompatible.merge.perm (extensionsIn_perm h)).subset (typesIn_perm h).symm.subset
  directives := ((directivesIn_perm h).map _).nodup_iff.1 hcompatible.directives
  roots := ((rootsIn_perm h).map _).nodup_iff.1 hcompatible.roots
  rootTypes := ((rootsIn_perm h).map _).nodup_iff.1 hcompatible.rootTypes

/-- Whether a schema can be built of definitions does not depend on the order. -/
theorem Buildable.perm (hbuildable : Buildable ds) : Buildable ds' := by
  have hall : (withIntrospection ds).Perm (withIntrospection ds') := withIntrospection_perm h
  have hdefined := definedAs_eq_of_perm hall
  refine
    { compatible := hbuildable.compatible.perm hall
      extended := fun e he => ?extended
      rootObjects := fun r hr => ?rootObjects
      query := ?query
      references := fun d hd => ?references }
  case extended =>
    have hmem := hbuildable.extended e ((extensionsIn_perm hall).mem_iff.2 he)
    exact (typeNamesIn_perm hall).mem_iff.1 hmem
  case rootObjects =>
    rw [← hdefined]
    exact hbuildable.rootObjects r ((rootsIn_perm h).mem_iff.2 hr)
  case query =>
    rw [← hdefined]
    refine hbuildable.query.imp_left ?_
    rintro ⟨r, hr⟩
    exact ⟨r, (rootsIn_perm h).mem_iff.1 hr⟩
  case references =>
    have hrefers := hbuildable.references d ((typesIn_perm hall).mem_iff.2 hd)
    rw [RefersWell, hdefined] at hrefers
    exact (refersWell_perm (extensionsIn_perm hall)).1 hrefers

end Views

/-- Types that are assembled from the same parts agree, in whatever order the parts come. -/
theorem Assembled.agrees {path : Path} {d : TypeSystem.TypeDefinition} {parts parts' : List Part}
    {t t' : NamedType} (h : Assembled path d parts t) (h' : Assembled path d parts' t')
    (hperm : parts.Perm parts') : t.Agrees t' where
  kind := h'.kind.trans h.kind.symm
  name := h'.name.trans h.name.symm
  location := h'.location.trans h.location.symm
  description := h'.description.trans h.description.symm
  entries := by
    rw [h.entries, h'.entries]
    exact hperm.flatMap_right _
  interfaces := by
    rw [h.interfaces, h'.interfaces]
    exact hperm.flatMap_right _

/-- The parts of a type are the same, in whatever order its extensions are listed. -/
theorem partsOf_perm {es es' : List (Path × TypeSystem.TypeExtension)} (h : es.Perm es')
    (d : Path × TypeSystem.TypeDefinition) : (partsOf d es).Perm (partsOf d es') :=
  .cons _ (.map _ (h.filter _))

/-- Maps hold types that agree if the same types are defined and extended, in whatever order. -/
theorem TypesHeld.agrees {defs defs' : List (Path × TypeSystem.TypeDefinition)}
    {es es' : List (Path × TypeSystem.TypeExtension)} {types types' : TypeMap}
    (h : TypesHeld defs es types) (h' : TypesHeld defs' es' types') (hdefs : defs.Perm defs')
    (hes : es.Perm es') (name : String) :
    Option.Rel NamedType.Agrees (types.get? name) (types'.get? name) := by
  cases ht : types.get? name with
  | none =>
    -- the same names are held on both sides
    have hkeys : types.keys.Perm types'.keys := by
      rw [h.keys, h'.keys]
      exact (hdefs.map _).append_left _
    have hnone : types'.get? name = none := by
      rw [OrderedMap.get?_eq_none_iff] at ht ⊢
      exact fun hmem => ht (hkeys.mem_iff.2 hmem)
    rw [hnone]
    exact .none
  | some t =>
    rcases h.cases ht with ⟨s, rfl, rfl⟩ | ⟨d, hd, rfl, hassembled⟩
    · rw [h'.builtIn s]
      exact .some (.refl _)
    · -- one definition and the same extensions, though perhaps merged in another order
      obtain ⟨t', ht', hassembled'⟩ := h'.custom d (hdefs.mem_iff.1 hd)
      rw [ht']
      exact .some (hassembled.agrees hassembled' (partsOf_perm hes d))

namespace Schema.MadeOf

variable {ds ds' : List WrittenDefinition} {s s' : Schema}

/-- Types agree that are made of the same definitions. -/
theorem types_agree (h : s.MadeOf ds) (h' : s'.MadeOf ds') (hperm : ds.Perm ds') (name : String) :
    Option.Rel NamedType.Agrees (s.type? name) (s'.type? name) :=
  have hall := withIntrospection_perm hperm
  h.types.agrees h'.types (typesIn_perm hall) (mergedExtensions_perm_of_perm hall) name

/-- The directives are the same if the same ones are defined. -/
theorem directives_agree (h : s.MadeOf ds) (h' : s'.MadeOf ds') (hperm : ds.Perm ds')
    (name : String) : s'.directive? name = s.directive? name := by
  obtain ⟨m, hentries, hdirectives⟩ := h.directives
  obtain ⟨m', hentries', hdirectives'⟩ := h'.directives
  have hget : ∀ name, m'.get? name = m.get? name := by
    refine fun name => OrderedMap.get?_eq_of_perm ?_
    rw [hentries, hentries']
    exact ((directivesIn_perm hperm).map _).symm
  rw [Schema.directive?, Schema.directive?, hdirectives, hdirectives',
    Builder.get?_withBuiltInDirectives, Builder.get?_withBuiltInDirectives, hget]

/-- The root of a kind of operation is the same if the same roots are declared and the same types
are defined. -/
theorem roots_agree (h : s.MadeOf ds) (h' : s'.MadeOf ds') (hperm : ds.Perm ds')
    (kind : OperationKind) : s'.root? kind = s.root? kind := by
  by_cases hdeclared : ∃ r, (kind, r) ∈ rootsIn ds
  · obtain ⟨r, hr⟩ := hdeclared
    obtain ⟨-, hroot⟩ := h.declared kind r hr
    obtain ⟨-, hroot'⟩ := h'.declared kind r ((rootsIn_perm hperm).mem_iff.1 hr)
    rw [hroot, hroot']
  · have hnone : ∀ r, (kind, r) ∉ rootsIn ds := fun r hr => hdeclared ⟨r, hr⟩
    have hnone' : ∀ r, (kind, r) ∉ rootsIn ds' := fun r hr =>
      hnone r ((rootsIn_perm hperm).mem_iff.2 hr)
    -- without a declaration the root depends on the type with the default name, which agrees
    have hagree := h.types_agree h' hperm kind.defaultTypeName
    ext r
    rw [Builder.eq_some_iff_of_resolveRoot_none (h.undeclared kind hnone),
      Builder.eq_some_iff_of_resolveRoot_none (h'.undeclared kind hnone')]
    unfold Schema.type? at hagree
    generalize s.types.get? kind.defaultTypeName = o at hagree ⊢
    generalize s'.types.get? kind.defaultTypeName = o' at hagree ⊢
    cases hagree with
    | none => rfl
    | some ht => simp only [Option.some.injEq, exists_eq_left', ht.kind, ht.location]

/-- Schemas agree that are made of the same definitions, in whatever order these come. -/
theorem agrees (h : s.MadeOf ds) (h' : s'.MadeOf ds') (hperm : ds.Perm ds') : s.Agrees s' where
  query := Option.some.inj (h.roots_agree h' hperm .query)
  mutation := h.roots_agree h' hperm .mutation
  subscription := h.roots_agree h' hperm .subscription
  directives := h.directives_agree h' hperm
  types := h.types_agree h' hperm

end Schema.MadeOf

/-- The schema that is built of some definitions, taken one after the other. -/
def Schema.ofDefinitions (ds : List WrittenDefinition) : Except BuildError Schema :=
  ds.foldlM (fun b x => b.addDefinition x.1 x.2) Builder.empty >>= Builder.build

/-- A schema can be built just of what is buildable. -/
theorem exists_ofDefinitions_iff (ds : List WrittenDefinition) :
    (∃ s, Schema.ofDefinitions ds = .ok s) ↔ Buildable ds := by
  constructor
  · rintro ⟨s, hs⟩
    obtain ⟨b, hload, hbuild⟩ := bind_eq_ok.1 hs
    exact .of_build (Loaded.empty.foldlM hload) hbuild
  · intro h
    obtain ⟨b, s, hload, hbuild⟩ := h.exists_build
    exact ⟨s, bind_eq_ok.2 ⟨b, hload, hbuild⟩⟩

/-- A schema that has been built of definitions is made of them. -/
theorem Schema.madeOf_of_ofDefinitions {ds : List WrittenDefinition} {s : Schema}
    (hs : Schema.ofDefinitions ds = .ok s) : s.MadeOf ds := by
  obtain ⟨b, hload, hbuild⟩ := bind_eq_ok.1 hs
  exact .of_build (Loaded.empty.foldlM hload) hbuild

/-- Building a schema of definitions succeeds in any order of the definitions or in none, and all
the schemas that are built of them agree. -/
theorem ofDefinitions_perm {ds ds' : List WrittenDefinition} (hperm : ds.Perm ds') :
    ((∃ s, Schema.ofDefinitions ds = .ok s) ↔ ∃ s, Schema.ofDefinitions ds' = .ok s) ∧
      ∀ s s', Schema.ofDefinitions ds = .ok s → Schema.ofDefinitions ds' = .ok s' →
        s.Agrees s' := by
  refine ⟨?_, fun s s' hs hs' => ?_⟩
  · rw [exists_ofDefinitions_iff, exists_ofDefinitions_iff]
    exact ⟨.perm hperm, .perm hperm.symm⟩
  · have hmade : s.MadeOf ds := Schema.madeOf_of_ofDefinitions hs
    have hmade' : s'.MadeOf ds' := Schema.madeOf_of_ofDefinitions hs'
    exact hmade.agrees hmade' hperm

/-- A type with one extension before it and another one after it, so that reading the list backwards
merges the extensions in another order. -/
def twiceExtended : List WrittenDefinition :=
  let field (name : String) : TypeSystem.Field := ⟨.start, none, name, [], .named "Int"⟩
  let extension (name : String) : WrittenDefinition :=
    (⟨name ++ ".graphql"⟩, .extension ⟨.start, "Query", .object [] [field name]⟩)
  [extension "g", (⟨"types.graphql"⟩, .type ⟨.start, none, "Query", .object [] [field "f"]⟩),
    extension "h"]

/-- The list can be read backwards, and the schemas agree. -/
theorem ofDefinitions_perm_twiceExtended :
    twiceExtended.Perm twiceExtended.reverse ∧
      ∃ s s', Schema.ofDefinitions twiceExtended = .ok s ∧
        Schema.ofDefinitions twiceExtended.reverse = .ok s' ∧ s.Agrees s' := by
  have hperm : twiceExtended.Perm twiceExtended.reverse := (List.reverse_perm _).symm
  have hpaths : ∀ x ∈ twiceExtended, x.1.same Introspection.path = false := by decide +kernel
  have hwellFormed : WellFormed twiceExtended := by decide +kernel
  obtain ⟨s, hs⟩ := (exists_ofDefinitions_iff twiceExtended).2 (hwellFormed.buildable hpaths)
  obtain ⟨hiff, hagrees⟩ := ofDefinitions_perm hperm
  obtain ⟨s', hs'⟩ := hiff.1 ⟨s, hs⟩
  exact ⟨hperm, s, s', hs, hs', hagrees s s' hs hs'⟩

end GraphQLCheck
