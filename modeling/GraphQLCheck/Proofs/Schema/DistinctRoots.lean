import GraphQLCheck.Proofs.Schema.Sources

/-!
# When the root types of a schema are different

The roots that are declared are compared with one another while schema blocks are loaded. The roots
that are found under their default names come later, and are compared with nothing. So a type with
the default name of one kind of operation may be declared as the root of another kind, and then it
is the root of both, unless the one kind has its root declared, too.

Main statement: the roots of a schema that has been built are different types just if no root is
declared with the default name of a kind that has no root declared (`rootsDiffer_iff`).
-/

namespace GraphQLCheck

/-- Whether no two kinds of operation have the same root type. -/
def Schema.RootsDiffer (s : Schema) : Prop :=
  ∀ kind kind' t, kind ≠ kind' → s.rootType? kind = some t → s.rootType? kind' ≠ some t

/-- The roots that a definition declares, each by the name of its type. -/
def TypeSystem.Definition.rootNames : TypeSystem.Definition → List (OperationKind × String)
  | .schema d =>
    [(.query, d.query), (.mutation, d.mutation), (.subscription, d.subscription)].flatMap
      fun entry => entry.2.toList.map fun type => (entry.1, type)
  | _ => []

/-- The roots that some sources declare, each by the name of its type. -/
def rootNamesIn (sources : List (Option Path × String)) : List (OperationKind × String) :=
  (definitionsIn sources).flatMap TypeSystem.Definition.rootNames

/-- The names of the roots that are declared do not depend on where this is done. -/
theorem map_rootsIn (ds : List WrittenDefinition) :
    (rootsIn ds).map (fun r => (r.1, r.2.type)) =
      (ds.map Prod.snd).flatMap TypeSystem.Definition.rootNames := by
  have hroots (x : WrittenDefinition) :
      x.roots.map (fun r => (r.1, r.2.type)) = x.2.rootNames := by
    obtain ⟨path, d⟩ := x
    cases d with
    | schema d =>
      show (List.flatMap _ _).map _ = List.flatMap _ _
      rw [List.map_flatMap]
      refine congrArg (List.flatMap · _) (funext fun entry => ?_)
      rw [namedRoot, List.map_map]
      rfl
    | _ => rfl
  rw [rootsIn, List.map_flatMap, List.flatMap_map]
  exact congrArg (List.flatMap · ds) (funext hroots)

/-- Different kinds of operation have different default names. -/
theorem OperationKind.defaultTypeName_injective :
    Function.Injective OperationKind.defaultTypeName := by
  intro kind kind' h
  cases kind <;> cases kind' <;> first | rfl | exact absurd h (by decide)

namespace Schema.MadeOf

variable {s : Schema} {ds : List WrittenDefinition}

/-- The root of a kind of operation is the one that is declared, or is found under the default
name if none is. -/
theorem root_cases (h : s.MadeOf ds) {kind : OperationKind} {r : TypeReference}
    (hr : s.root? kind = some r) :
    (∃ d, (kind, d) ∈ rootsIn ds ∧ d.type = r.name) ∨
      (∀ d, (kind, d) ∉ rootsIn ds) ∧ r.name = kind.defaultTypeName := by
  by_cases hdeclared : ∃ d, (kind, d) ∈ rootsIn ds
  · obtain ⟨d, hd⟩ := hdeclared
    obtain ⟨-, hroot⟩ := h.declared kind d hd
    obtain rfl := Option.some.inj (hr.symm.trans hroot)
    exact .inl ⟨d, hd, rfl⟩
  · have hnone : ∀ d, (kind, d) ∉ rootsIn ds := fun d hd => hdeclared ⟨d, hd⟩
    obtain ⟨t, -, -, rfl⟩ :=
      (Builder.eq_some_iff_of_resolveRoot_none (h.undeclared kind hnone)).1 hr
    exact .inr ⟨hnone, rfl⟩

/-- Kinds with the same root type refer to it by the same name. -/
theorem root_name_eq (h : s.MadeOf ds) {kind kind' : OperationKind} {r r' : TypeReference}
    {t : NamedType} (hr : s.root? kind = some r) (hr' : s.root? kind' = some r')
    (ht : s.rootType? kind = some t) (ht' : s.rootType? kind' = some t) : r.name = r'.name := by
  rw [Schema.rootType?, hr] at ht
  rw [Schema.rootType?, hr'] at ht'
  exact (h.types.name_of_get? ht).symm.trans (h.types.name_of_get? ht')

/-- A type that is declared as a root, and has the default name of a kind without a declared root,
is the root of both kinds. -/
theorem rootType?_eq_of_default (h : s.MadeOf ds) {kind kind' : OperationKind}
    {d : RootDeclaration} (hd : (kind, d) ∈ rootsIn ds) (hname : d.type = kind'.defaultTypeName)
    (hnone : ∀ d', (kind', d') ∉ rootsIn ds) :
    ∃ t, s.rootType? kind = some t ∧ s.rootType? kind' = some t ∧ t.name = d.type := by
  obtain ⟨⟨t, ht, hkind⟩, hroot⟩ := h.declared kind d hd
  have hdefault : s.types.get? kind'.defaultTypeName = some t := by
    rw [← hname]
    exact ht
  -- the declared root is an object, so it is found under the default name as well
  have hroot' : s.root? kind' = some ⟨kind'.defaultTypeName, t.location⟩ :=
    (Builder.eq_some_iff_of_resolveRoot_none (h.undeclared kind' hnone)).2
      ⟨t, hdefault, hkind, rfl⟩
  refine ⟨t, ?_, ?_, h.types.name_of_get? ht⟩
  · rw [Schema.rootType?, hroot]
    exact ht
  · rw [Schema.rootType?, hroot']
    exact hdefault

/-- The roots are different types just if none is declared with the default name of another kind
that has no root declared. -/
theorem rootsDiffer_iff_rootsIn (h : s.MadeOf ds)
    (hnodup : ((rootsIn ds).map fun r => r.2.type).Nodup) :
    s.RootsDiffer ↔ ∀ kind kind', kind ≠ kind' →
      (∃ d, (kind, d) ∈ rootsIn ds ∧ d.type = kind'.defaultTypeName) →
        ∃ d, (kind', d) ∈ rootsIn ds := by
  constructor
  · rintro hdiffer kind kind' hkinds ⟨d, hd, hname⟩
    by_contra hnone
    obtain ⟨t, ht, ht', -⟩ :=
      h.rootType?_eq_of_default hd hname fun d' hd' => hnone ⟨d', hd'⟩
    exact hdiffer kind kind' t hkinds ht ht'
  · intro hdefaults kind kind' t hkinds ht ht'
    obtain ⟨r, hr, -⟩ := Option.bind_eq_some_iff.1 ht
    obtain ⟨r', hr', -⟩ := Option.bind_eq_some_iff.1 ht'
    have hnames : r.name = r'.name := h.root_name_eq hr hr' ht ht'
    rcases h.root_cases hr with ⟨d, hd, hname⟩ | ⟨hnone, hname⟩
    · rcases h.root_cases hr' with ⟨d', hd', hname'⟩ | ⟨hnone', hname'⟩
      · -- both are declared, and what is declared is different
        have htypes : d.type = d'.type := by rw [hname, hname', hnames]
        have hsame := List.inj_on_of_nodup_map hnodup hd hd' htypes
        exact hkinds (congrArg Prod.fst hsame)
      · obtain ⟨d', hd'⟩ := hdefaults kind kind' hkinds ⟨d, hd, by rw [hname, hnames, hname']⟩
        exact hnone' d' hd'
    · rcases h.root_cases hr' with ⟨d', hd', hname'⟩ | ⟨-, hname'⟩
      · obtain ⟨d, hd⟩ := hdefaults kind' kind hkinds.symm
          ⟨d', hd', by rw [hname', ← hnames, hname]⟩
        exact hnone d hd
      · have hdefault : kind.defaultTypeName = kind'.defaultTypeName := by
          rw [← hname, ← hname', hnames]
        exact hkinds (OperationKind.defaultTypeName_injective hdefault)

end Schema.MadeOf

/-- A root is declared if its kind of operation and the name of its type are listed. -/
theorem mem_rootNamesIn_iff {ds : List WrittenDefinition} {sources : List (Option Path × String)}
    (hds : ds.map Prod.snd = definitionsIn sources) {kind : OperationKind} {name : String} :
    (kind, name) ∈ rootNamesIn sources ↔ ∃ d, (kind, d) ∈ rootsIn ds ∧ d.type = name := by
  rw [rootNamesIn, ← hds, ← map_rootsIn, List.mem_map]
  constructor
  · rintro ⟨⟨kind', d⟩, hd, heq⟩
    obtain ⟨rfl, rfl⟩ := Prod.mk.inj heq
    exact ⟨d, hd, rfl⟩
  · rintro ⟨d, hd, rfl⟩
    exact ⟨(kind, d), hd, rfl⟩

/-- Whatever sources a schema is built of, its roots are different types just if no root is declared
with the default name of another kind of operation that has no root declared. -/
theorem rootsDiffer_iff (sources : List (Option Path × String)) {s : Schema}
    (hbuild : (sources.foldlM (fun b source => b.load source.1 source.2) Builder.empty >>=
      Builder.build) = .ok s) :
    s.RootsDiffer ↔ ∀ kind kind', kind ≠ kind' →
      (kind, kind'.defaultTypeName) ∈ rootNamesIn sources →
        ∃ name, (kind', name) ∈ rootNamesIn sources := by
  obtain ⟨ds, b, hb, hbuild, hds⟩ := exists_loaded_of_build hbuild
  have hmade : s.MadeOf ds := .of_build hb hbuild
  rw [hmade.rootsDiffer_iff_rootsIn hb.rootTypes]
  simp only [mem_rootNamesIn_iff hds]
  refine forall₄_congr fun kind kind' _ _ => ?_
  constructor
  · rintro ⟨d, hd⟩
    exact ⟨d.type, d, hd, rfl⟩
  · rintro ⟨-, d, hd, -⟩
    exact ⟨d, hd⟩

/-- The path of the sources below. -/
def rootsPath : Path := ⟨"roots.graphql"⟩

/-- A source that declares `Mutation` as the root of queries, and another type as that of
mutations. -/
def twoRootsSource : String :=
  "schema \x7b query: Mutation mutation: Edits \x7d type Mutation \x7b a: Int \x7d
type Edits \x7b b: Int \x7d"

/-- A source that declares `Mutation` as the root of queries, and no other root. -/
def sharedRootSource : String := "schema \x7b query: Mutation \x7d type Mutation \x7b a: Int \x7d"

/-- A schema can be built where the root of queries has the default name of that of mutations, and
its roots are different types, since mutations have their root declared. -/
theorem rootsDiffer_twoRootsSource :
    ∃ s, ([(some rootsPath, twoRootsSource)].foldlM (fun b source => b.load source.1 source.2)
      Builder.empty >>= Builder.build) = .ok s ∧ s.RootsDiffer := by
  have hpath : rootsPath.same Introspection.path = false := by decide +kernel
  have hsource : makesUpSchema rootsPath twoRootsSource = true := by decide +kernel
  have hnames : rootNamesIn [(some rootsPath, twoRootsSource)] =
      [(.query, "Mutation"), (.mutation, "Edits")] := by
    decide +kernel
  obtain ⟨s, hbuild⟩ := exists_build_of_source hpath hsource
  refine ⟨s, hbuild, (rootsDiffer_iff _ hbuild).2 ?_⟩
  rw [hnames]
  intro kind kind' hkinds hmem
  cases kind' with
  | mutation => exact ⟨"Edits", by decide⟩
  | query | subscription =>
    -- no root is declared with one of the other default names
    simp [OperationKind.defaultTypeName] at hmem

/-- A schema can be built where one type is the root of queries, as which it is declared, and the
root of mutations, as which it is found under its name. -/
theorem not_rootsDiffer_sharedRootSource :
    ∃ s t, ([(some rootsPath, sharedRootSource)].foldlM (fun b source => b.load source.1 source.2)
        Builder.empty >>= Builder.build) = .ok s ∧
      s.rootType? .query = some t ∧ s.rootType? .mutation = some t ∧ t.name = "Mutation" ∧
      ¬s.RootsDiffer := by
  have hpath : rootsPath.same Introspection.path = false := by decide +kernel
  have hsource : makesUpSchema rootsPath sharedRootSource = true := by decide +kernel
  have hnames : rootNamesIn [(some rootsPath, sharedRootSource)] = [(.query, "Mutation")] := by
    decide +kernel
  obtain ⟨s, hbuild⟩ := exists_build_of_source hpath hsource
  obtain ⟨ds, b, hb, hbuilt, hds⟩ := exists_loaded_of_build hbuild
  have hquery : ∃ d, (.query, d) ∈ rootsIn ds ∧
      d.type = OperationKind.mutation.defaultTypeName := by
    rw [← mem_rootNamesIn_iff hds, hnames]
    exact List.mem_singleton.2 rfl
  have hmutation : ∀ d, (.mutation, d) ∉ rootsIn ds := by
    intro d hd
    have hmem := (mem_rootNamesIn_iff hds).2 ⟨d, hd, rfl⟩
    rw [hnames] at hmem
    exact nomatch (Prod.mk.inj (List.mem_singleton.1 hmem)).1
  obtain ⟨d, hd, hname⟩ := hquery
  obtain ⟨t, ht, ht', htname⟩ :=
    (Schema.MadeOf.of_build hb hbuilt).rootType?_eq_of_default hd hname hmutation
  refine ⟨s, t, hbuild, ht, ht', htname.trans hname, fun hdiffer => ?_⟩
  exact hdiffer .query .mutation t (by decide) ht ht'

end GraphQLCheck
