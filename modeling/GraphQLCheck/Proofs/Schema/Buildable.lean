import GraphQLCheck.Proofs.Schema.Building

/-!
# When a schema can be built, and what it holds then

`Buildable` says when a schema can be built of some definitions, whatever the paths of their sources
are, and `Schema.MadeOf` what a schema holds that has been built of them. Both speak of the list of
definitions only, and not of how the builder has come to its end.

Main statements: a schema that has been built is made of what has been loaded
(`Schema.MadeOf.of_build`), its directives are those that are written and those that are built in
(`Schema.MadeOf.directive_cases`, `Schema.MadeOf.directive?_written`), and a schema can be built
just of what is buildable (`Buildable.exists_build`, `Buildable.of_build`).
-/

namespace GraphQLCheck

/-- The bodies of a type are the same, in whatever order its extensions are listed. -/
theorem bodiesOf_perm {es es' : List (Path × TypeSystem.TypeExtension)} (h : es.Perm es')
    (d : TypeSystem.TypeDefinition) : (bodiesOf d es).Perm (bodiesOf d es') :=
  .cons _ (.map _ (h.filter _))

/-- Whether a type refers to other types as it may, extensions included, and is no enum without
values. -/
def RefersWell (ds : List WrittenDefinition) (d : Path × TypeSystem.TypeDefinition)
    (es : List (Path × TypeSystem.TypeExtension)) : Prop :=
  (∀ body ∈ bodiesOf d.2 es, body.Resolves (DefinedAs ds)) ∧
    (d.2.body.kind = .enum → (bodiesOf d.2 es).flatMap TypeSystem.Body.memberNames ≠ [])

/-- The order of the extensions does not matter for what a type refers to. -/
theorem refersWell_perm {ds : List WrittenDefinition} {d : Path × TypeSystem.TypeDefinition}
    {es es' : List (Path × TypeSystem.TypeExtension)} (h : es.Perm es') :
    RefersWell ds d es ↔ RefersWell ds d es' := by
  have hperm : (bodiesOf d.2 es).Perm (bodiesOf d.2 es') := bodiesOf_perm h d.2
  have hnil : (bodiesOf d.2 es).flatMap TypeSystem.Body.memberNames = [] ↔
      (bodiesOf d.2 es').flatMap TypeSystem.Body.memberNames = [] := by
    rw [← List.length_eq_zero_iff, (hperm.flatMap_right _).length_eq, List.length_eq_zero_iff]
  unfold RefersWell
  simp only [hperm.mem_iff, ne_eq, hnil]

/-- The types that are held once all extensions are merged refer to one another as they may just if
they do so as written. -/
theorem TypesHeld.referenceErrors_eq_nil_iff_written {ds : List WrittenDefinition}
    {types : TypeMap} (h : TypesHeld (typesIn ds) (mergedExtensions ds) types) :
    types.referenceErrors = [] ↔ ∀ d ∈ typesIn ds, RefersWell ds d (extensionsIn ds) := by
  rw [h.referenceErrors_eq_nil_iff]
  exact forall₂_congr fun d _ => refersWell_perm (mergedExtensions_perm ds)

/-- Whether a schema can be built of some definitions, together with the introspection types. -/
structure Buildable (ds : List WrittenDefinition) : Prop where
  compatible : Compatible (withIntrospection ds)
  /-- Each extension is of a type that is defined. -/
  extended : ∀ e ∈ extensionsIn (withIntrospection ds),
    e.2.name ∈ typeNamesIn (withIntrospection ds)
  /-- The roots that are declared are objects. -/
  rootObjects : ∀ r ∈ rootsIn ds, DefinedAs (withIntrospection ds) r.2.type .object
  /-- There is a root for queries. -/
  query : (∃ r, (.query, r) ∈ rootsIn ds) ∨
    DefinedAs (withIntrospection ds) OperationKind.query.defaultTypeName .object
  references : ∀ d ∈ typesIn (withIntrospection ds),
    RefersWell (withIntrospection ds) d (extensionsIn (withIntrospection ds))

/-- Whether a schema holds what some definitions and the introspection types make up. -/
structure Schema.MadeOf (s : Schema) (ds : List WrittenDefinition) : Prop where
  types : TypesHeld (typesIn (withIntrospection ds)) (mergedExtensions (withIntrospection ds))
    s.types
  references : s.types.referenceErrors = []
  /-- A root that is declared is an object, and is referred to from where it is declared. -/
  declared : ∀ kind r, (kind, r) ∈ rootsIn ds →
    s.types.HasKind r.type .object ∧ s.root? kind = some ⟨r.type, r.location⟩
  /-- A root that is not declared is the object with the default name, if there is one. -/
  undeclared : ∀ kind, (∀ r, (kind, r) ∉ rootsIn ds) →
    Builder.resolveRoot s.types kind none = .ok (s.root? kind)
  /-- The directives that are defined come with those that are built in. -/
  directives : ∃ m : OrderedMap DirectiveDef,
    m.entries = (directivesIn ds).map (fun d => (d.2.name, .written d.1 d.2)) ∧
    s.directives = Builder.withBuiltInDirectives m

section Built

variable {ds : List WrittenDefinition} {b : Builder} {s : Schema}

/-- What a schema is built of in the end: the introspection types have been loaded too, the
extensions that were kept are merged, and the roots are found. -/
private theorem loaded_of_build (hb : Loaded ds b) (hbuild : b.build = .ok s) :
    ∃ b', Loaded (withIntrospection ds) b' ∧
      b'.orderedPending.foldlM Builder.mergePending b'.types = .ok s.types ∧
      s.types.referenceErrors = [] ∧
      (∀ kind, Builder.resolveRoot s.types kind (b'.root? kind) = .ok (s.root? kind)) ∧
      s.directives = Builder.withBuiltInDirectives b'.directives := by
  obtain ⟨b', hintrospection, htypes, herrors, hquery, hmutation, hsubscription, hdirectives⟩ :=
    Builder.build_eq_ok_iff.1 hbuild
  rw [Builder.addDefinitions_eq] at hintrospection
  refine ⟨b', hb.foldlM hintrospection, htypes, herrors, fun kind => ?_, hdirectives⟩
  cases kind with
  | query => exact hquery
  | mutation => exact hmutation
  | subscription => exact hsubscription

/-- A schema that has been built is made of what has been loaded. -/
theorem Schema.MadeOf.of_build (hb : Loaded ds b) (hbuild : b.build = .ok s) : s.MadeOf ds := by
  obtain ⟨b', hb', htypes, herrors, hroot, hdirectives⟩ := loaded_of_build hb hbuild
  have hdeclared : ∀ kind r, b'.root? kind = some r ↔ (kind, r) ∈ rootsIn ds := by
    rw [← rootsIn_withIntrospection]
    exact hb'.roots.declared
  refine
    { types := hb'.merged htypes
      references := herrors
      declared := fun kind r hr => ?declared
      undeclared := fun kind hnone => ?undeclared
      directives := ⟨b'.directives, ?directives, hdirectives⟩ }
  case declared =>
    have hok := hroot kind
    rw [(hdeclared kind r).2 hr] at hok
    exact Builder.resolveRoot_some_eq_ok_iff.1 hok
  case undeclared =>
    have hget : b'.root? kind = none := by
      rw [Option.eq_none_iff_forall_ne_some]
      exact fun r hr => hnone r ((hdeclared kind r).1 hr)
    rw [← hget]
    exact hroot kind
  case directives =>
    rw [hb'.directives, directivesIn_withIntrospection]

/-- Definitions of which a schema has been built are buildable. -/
theorem Buildable.of_build (hb : Loaded ds b) (hbuild : b.build = .ok s) : Buildable ds := by
  obtain ⟨b', hb', -, -, -, -⟩ := loaded_of_build hb hbuild
  have hmade : s.MadeOf ds := .of_build hb hbuild
  have hheld := hmade.types
  -- what has been extended in the end is defined
  have hextended : ∀ e ∈ extensionsIn (withIntrospection ds),
      e.2.name ∈ typeNamesIn (withIntrospection ds) := fun e he =>
    hheld.extended e ((mergedExtensions_perm _).mem_iff.2 he)
  -- each condition is read off what the builder holds, or off a check that has passed
  refine
    { compatible :=
        { names := hb'.names
          types := hheld.nodup
          custom := fun e he hbuiltIn => ?custom
          merge := hheld.allMerge.perm (mergedExtensions_perm _)
          directives := ?directives
          roots := hb'.roots.once
          rootTypes := hb'.rootTypes }
      extended := hextended
      rootObjects := fun r hr => (hheld.hasKind_iff _ _).1 (hmade.declared r.1 r.2 hr).1
      query := ?query
      references := hheld.referenceErrors_eq_nil_iff_written.1 hmade.references }
  case custom => exact (List.nodup_append.1 hheld.nodup).2.2 _ hbuiltIn _ (hextended e he) rfl
  case directives =>
    have hnodup := b'.directives.nodup_keys
    rw [hb'.directives, List.map_map] at hnodup
    exact hnodup
  case query =>
    by_cases hr : ∃ r, (.query, r) ∈ rootsIn ds
    · exact .inl hr
    · refine .inr ((hheld.hasKind_iff _ _).1 ?_)
      have hok := hmade.undeclared .query fun r hmem => hr ⟨r, hmem⟩
      exact Builder.resolveRoot_none_eq_ok_some_iff.1 ⟨s.query, hok⟩

end Built

namespace Schema.MadeOf

variable {ds : List WrittenDefinition} {s : Schema}

/-- A directive is written in one of the sources, or built in. -/
theorem directive_cases (h : s.MadeOf ds) {name : String} {d : DirectiveDef}
    (hd : s.directive? name = some d) :
    (∃ w ∈ directivesIn ds, w.2.name = name ∧ d = .written w.1 w.2) ∨
      d ∈ DirectiveDef.builtIns ∧ d.name = name := by
  obtain ⟨m, hentries, hdirectives⟩ := h.directives
  rw [directive?, hdirectives, Builder.get?_withBuiltInDirectives, Option.or_eq_some_iff] at hd
  rcases hd with hd | ⟨-, hd⟩
  · rw [OrderedMap.get?_eq_some_iff, hentries] at hd
    obtain ⟨w, hw, heq⟩ := List.mem_map.1 hd
    obtain ⟨hname, hwritten⟩ := Prod.mk.inj heq
    exact .inl ⟨w, hw, hname, hwritten.symm⟩
  · have hname := List.find?_some hd
    exact .inr ⟨List.mem_of_find?_eq_some hd, of_decide_eq_true hname⟩

/-- A directive that is written is found under its name. -/
theorem directive?_written (h : s.MadeOf ds) {w : Path × TypeSystem.DirectiveDefinition}
    (hw : w ∈ directivesIn ds) : s.directive? w.2.name = some (.written w.1 w.2) := by
  obtain ⟨m, hentries, hdirectives⟩ := h.directives
  have hget : m.get? w.2.name = some (.written w.1 w.2) := by
    rw [OrderedMap.get?_eq_some_iff, hentries]
    exact List.mem_map_of_mem hw
  rw [directive?, hdirectives, Builder.get?_withBuiltInDirectives, hget]
  rfl

end Schema.MadeOf

namespace Buildable

variable {ds : List WrittenDefinition}

/-- Definitions that are buildable can be loaded, and then a schema can be built. -/
theorem exists_build (h : Buildable ds) :
    ∃ b s, ds.foldlM (fun b x => b.addDefinition x.1 x.2) Builder.empty = .ok b ∧
      b.build = .ok s := by
  -- first what is written is loaded, and on top of it the introspection types
  obtain ⟨b, hload⟩ := Loaded.empty.exists_foldlM h.compatible.left
  have hb : Loaded ds b := Loaded.empty.foldlM hload
  obtain ⟨b', hintrospection⟩ := hb.exists_foldlM h.compatible
  have hb' : Loaded (withIntrospection ds) b' := hb.foldlM hintrospection
  -- then every extension that was kept has a type to be merged into
  obtain ⟨types, htypes⟩ : ∃ types,
      b'.orderedPending.foldlM Builder.mergePending b'.types = .ok types := by
    refine hb'.types.exists_foldlM_merge (fun e he => ?_) ?_
    · have hmerged : e ∈ mergedExtensions (withIntrospection ds) := by
        rw [← hb'.orderedPending]
        exact List.mem_append_right _ he
      exact h.extended e ((mergedExtensions_perm _).mem_iff.1 hmerged)
    · rw [hb'.orderedPending]
      exact h.compatible.merge.perm (mergedExtensions_perm _).symm
  have hheld := hb'.merged htypes
  have herrors : types.referenceErrors = [] :=
    hheld.referenceErrors_eq_nil_iff_written.2 h.references
  have hobject {kind : OperationKind} {r : RootDeclaration} (hr : b'.root? kind = some r) :
      types.HasKind r.type .object := by
    have hmem := (hb'.roots.declared kind r).1 hr
    rw [rootsIn_withIntrospection] at hmem
    exact (hheld.hasKind_iff _ _).2 (h.rootObjects _ hmem)
  -- a root that is declared is an object, and one that is not may be missing, but for queries
  have hroot (kind : OperationKind) :
      ∃ o, Builder.resolveRoot types kind (b'.root? kind) = .ok o := by
    cases hr : b'.root? kind with
    | none => exact Builder.exists_resolveRoot_none
    | some r => exact ⟨_, Builder.resolveRoot_some_eq_ok_iff.2 ⟨hobject hr, rfl⟩⟩
  obtain ⟨query, hquery⟩ : ∃ q, Builder.resolveRoot types .query (b'.root? .query) =
      .ok (some q) := by
    cases hr : b'.root? .query with
    | none =>
      rw [Builder.resolveRoot_none_eq_ok_some_iff, hheld.hasKind_iff]
      refine h.query.resolve_left fun ⟨r, hmem⟩ => ?_
      rw [← rootsIn_withIntrospection] at hmem
      exact nomatch hr.symm.trans ((hb'.roots.declared _ r).2 hmem)
    | some r => exact ⟨_, Builder.resolveRoot_some_eq_ok_iff.2 ⟨hobject hr, rfl⟩⟩
  obtain ⟨mutation, hmutation⟩ := hroot .mutation
  obtain ⟨subscription, hsubscription⟩ := hroot .subscription
  let directives := Builder.withBuiltInDirectives b'.directives
  refine ⟨b, ⟨types, directives, query, mutation, subscription⟩, hload,
    Builder.build_eq_ok_iff.2 ⟨b', ?_⟩⟩
  rw [Builder.addDefinitions_eq]
  exact ⟨hintrospection, htypes, herrors, hquery, hmutation, hsubscription, rfl⟩

end Buildable

end GraphQLCheck
