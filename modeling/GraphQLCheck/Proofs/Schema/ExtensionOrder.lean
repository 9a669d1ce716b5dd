import GraphQLCheck.Proofs.Schema.Sources

/-!
# In which order a type is put together

An extension is merged into its type when it is loaded, if the type is there by then, and else in
the end, together with all others that have been kept, kind by kind. For a single type this comes
to: its definition, then the extensions after it in load order, and then the extensions before it in
load order. The introspection types are defined last, so that all extensions of them come before.

Main statements: the parts of a type come in this order (`partsOf_merged`), and so do the members
and interfaces of every type of a schema that is built (`types_assembled_in_order`).
-/

namespace GraphQLCheck

open TypeSystem (TypeDefinition TypeExtension)

section Order

/-- The parts of a type that are its extensions among some definitions. -/
def extensionParts (name : String) (ds : List WrittenDefinition) : List Part :=
  ((extensionsIn ds).filter fun e => e.2.name = name).map fun e => .ofExtension e.1 e.2

/-- The extensions of a type in two lists. -/
@[simp]
theorem extensionParts_append (name : String) (ds ds' : List WrittenDefinition) :
    extensionParts name (ds ++ ds') = extensionParts name ds ++ extensionParts name ds' := by
  rw [extensionParts, extensionsIn_append, List.filter_append, List.map_append]
  rfl

/-- Where a type is not defined, all of its extensions are late if the type is known, and else all
of them are early. -/
theorem filter_extensionsFrom {name : String} {known : List String} {ds : List WrittenDefinition}
    (hname : name ∉ typeNamesIn ds) (late : Bool) :
    ((extensionsFrom late known ds).filter fun e => e.2.name = name) =
      if decide (name ∈ known) = late then (extensionsIn ds).filter fun e => e.2.name = name
      else [] := by
  induction ds generalizing known with
  | nil => split <;> rfl
  | cons x ds ih =>
    obtain ⟨path, d⟩ := x
    cases d with
    | type d =>
      have hne : name ≠ d.name := fun heq => hname (heq ▸ List.mem_cons_self)
      have hrest : name ∉ typeNamesIn ds := fun hmem => hname (List.mem_cons_of_mem _ hmem)
      rw [extensionsFrom, ih hrest]
      simp only [List.mem_append, List.mem_singleton, hne, or_false]
      rfl
    | extension e =>
      have hin : extensionsIn ((path, .extension e) :: ds) = (path, e) :: extensionsIn ds := rfl
      have hrest := @ih known hname
      rw [extensionsFrom, hin]
      by_cases he : e.name = name
      · subst he
        by_cases hlate : decide (e.name ∈ known) = late
        · simp only [hlate, if_true, List.filter_cons, decide_true] at hrest ⊢
          rw [hrest]
        · simpa only [hlate, if_false] using hrest
      · -- an extension of another type is left out on both sides
        rw [List.filter_cons_of_neg (by simpa using he), ← hrest]
        split
        · rw [List.filter_cons_of_neg (by simpa using he)]
        · rfl
    | schema _ | directive _ => exact ih hname

/-- Sorting by kinds changes nothing if everything is of one kind. -/
theorem flatMap_filter_eq_self {α κ : Type} [DecidableEq κ] {kind : α → κ} {kinds : List κ}
    (hnodup : kinds.Nodup) {k : κ} (hk : k ∈ kinds) {xs : List α} (hxs : ∀ x ∈ xs, kind x = k) :
    (kinds.flatMap fun k' => xs.filter fun x => kind x = k') = xs := by
  obtain ⟨before, after, rfl⟩ := List.append_of_mem hk
  have hnone {ks : List κ} (hks : k ∉ ks) :
      (ks.flatMap fun k' => xs.filter fun x => kind x = k') = [] := by
    refine List.flatMap_eq_nil_iff.2 fun k' hk' => List.filter_eq_nil_iff.2 fun x hx => ?_
    rw [hxs x hx, decide_eq_true_eq]
    exact fun heq => hks (heq ▸ hk')
  have hall : (xs.filter fun x => kind x = k) = xs :=
    List.filter_eq_self.2 fun x hx => decide_eq_true (hxs x hx)
  rw [List.nodup_append, List.nodup_cons] at hnodup
  obtain ⟨-, ⟨hafter, -⟩, hdisjoint⟩ := hnodup
  have hbefore : k ∉ before := fun hmem => hdisjoint k hmem k List.mem_cons_self rfl
  rw [List.flatMap_append, List.flatMap_cons, hnone hbefore, hnone hafter, hall, List.nil_append,
    List.append_nil]

/-- The parts of a type that is defined once, in the order in which they are merged: its definition,
the extensions after it, and the extensions before it. -/
theorem partsOf_merged {before after : List WrittenDefinition} {path : Path} {d : TypeDefinition}
    (hbefore : d.name ∉ builtInNames ++ typeNamesIn before) (hafter : d.name ∉ typeNamesIn after)
    (hkinds : ∀ body ∈ bodiesOf d (mergedExtensions (before ++ (path, .type d) :: after)),
      body.kind = d.body.kind) :
    partsOf (path, d) (mergedExtensions (before ++ (path, .type d) :: after)) =
      .ofDefinition path d :: (extensionParts d.name after ++ extensionParts d.name before) := by
  let ds := before ++ (path, TypeSystem.Definition.type d) :: after
  have hnew : d.name ∉ typeNamesIn before := fun hmem => hbefore (List.mem_append_right _ hmem)
  have hcustom : d.name ∉ builtInNames := fun hmem => hbefore (List.mem_append_left _ hmem)
  -- the extensions of the type that come before its definition are early, and those after it late
  have hextensions (late : Bool) :
      ((extensionsFrom late builtInNames ds).filter fun e => e.2.name = d.name) =
        if late then (extensionsIn after).filter fun e => e.2.name = d.name
        else (extensionsIn before).filter fun e => e.2.name = d.name := by
    have hknown : d.name ∈ builtInNames ++ typeNamesIn before ++ [d.name] := by simp
    rw [extensionsFrom_append, List.filter_append, filter_extensionsFrom hnew, extensionsFrom,
      filter_extensionsFrom hafter, decide_eq_false hcustom, decide_eq_true hknown]
    cases late
    · exact List.append_nil _
    · rfl
  have hlate : ((lateExtensions ds).filter fun e => e.2.name = d.name) =
      (extensionsIn after).filter fun e => e.2.name = d.name := hextensions true
  have hearly : ((earlyExtensions ds).filter fun e => e.2.name = d.name) =
      (extensionsIn before).filter fun e => e.2.name = d.name := hextensions false
  -- they are all of one kind, so that sorting by kinds keeps their order
  have hkind : ∀ e ∈ (extensionsIn before).filter fun e => e.2.name = d.name,
      e.2.body.kind = d.body.kind := by
    intro e he
    obtain ⟨hmem, hname⟩ := List.mem_filter.1 he
    have hmerged : e ∈ mergedExtensions ds := by
      rw [(mergedExtensions_perm ds).mem_iff, extensionsIn_append]
      exact List.mem_append_left _ hmem
    exact hkinds _ (List.mem_cons_of_mem _
      (List.mem_map.2 ⟨e, List.mem_filter.2 ⟨hmerged, hname⟩, rfl⟩))
  have hsorted : ((Builder.mergeOrder.flatMap fun kind =>
      (earlyExtensions ds).filter fun e => e.2.body.kind = kind).filter
        fun e => e.2.name = d.name) = (extensionsIn before).filter fun e => e.2.name = d.name := by
    have hmem : d.body.kind ∈ Builder.mergeOrder := by cases d.body.kind <;> decide
    rw [List.filter_flatMap, ← flatMap_filter_eq_self (by decide) hmem hkind, ← hearly]
    exact List.flatMap_congr fun kind _ => List.filter_comm ..
  rw [partsOf, mergedExtensions, List.filter_append, hlate, hsorted, List.map_append]
  rfl

/-- A type that is held is put together in this order, if all extensions have been merged. -/
theorem TypesHeld.assembled_merged {before after : List WrittenDefinition} {path : Path}
    {d : TypeDefinition} {types : TypeMap} {t : NamedType}
    (h : TypesHeld (typesIn (before ++ (path, .type d) :: after))
      (mergedExtensions (before ++ (path, .type d) :: after)) types)
    (ht : types.get? d.name = some t) :
    d.name ∉ typeNamesIn before ∧ d.name ∉ typeNamesIn after ∧
      Assembled path d (.ofDefinition path d ::
        (extensionParts d.name after ++ extensionParts d.name before)) t := by
  have hmem : (path, d) ∈ typesIn (before ++ (path, .type d) :: after) :=
    mem_typesIn.2 (List.mem_append_right _ List.mem_cons_self)
  obtain ⟨t', ht', hassembled⟩ := h.custom _ hmem
  obtain rfl := Option.some.inj (ht.symm.trans ht')
  -- no other definition has the name
  have hnodup : (builtInNames ++ typeNamesIn (before ++ (path, .type d) :: after)).Nodup := h.nodup
  rw [typeNamesIn_append, ← List.append_assoc] at hnodup
  obtain ⟨-, hafter, hdisjoint⟩ := List.nodup_append.1 hnodup
  have hbefore : d.name ∉ builtInNames ++ typeNamesIn before := fun hmem =>
    hdisjoint _ hmem _ List.mem_cons_self rfl
  have hlast : d.name ∉ typeNamesIn after := (List.nodup_cons.1 hafter).1
  have hkinds := hassembled.merges.kinds
  rw [map_body_partsOf] at hkinds
  rw [partsOf_merged hbefore hlast hkinds] at hassembled
  exact ⟨fun hmem => hbefore (List.mem_append_right _ hmem), hlast, hassembled⟩

/-- Whether a type is built in, or put together in the order of what some sources write: from its
definition, the extensions after it and then those before it. All extensions of an introspection
type count as coming before its definition. -/
inductive NamedType.PutTogether (ds : List WrittenDefinition) (t : NamedType) : Prop where
  | builtIn {s : BuiltInScalar} (ht : t = .builtIn s)
  | written {before after : List WrittenDefinition} {path : Path} {d : TypeDefinition}
      (hds : ds = before ++ (path, .type d) :: after)
      (hbefore : d.name ∉ typeNamesIn before) (hafter : d.name ∉ typeNamesIn after)
      (ht : Assembled path d
        (.ofDefinition path d :: (extensionParts d.name after ++ extensionParts d.name before)) t)
  | introspection {d : TypeDefinition} (hd : .type d ∈ Introspection.definitions)
      (hds : d.name ∉ typeNamesIn ds)
      (ht : Assembled Introspection.path d
        (.ofDefinition Introspection.path d :: extensionParts d.name ds) t)

/-- The introspection types are not extended among their definitions. -/
private theorem extensionParts_introspection {name : String} {before after : List WrittenDefinition}
    {path : Path} {d : TypeDefinition}
    (h : (Introspection.definitions.map fun d => (Introspection.path, d)) =
      before ++ (path, .type d) :: after) :
    extensionParts name before = [] ∧ extensionParts name after = [] := by
  have hnone : extensionParts name (before ++ (path, .type d) :: after) = [] := h ▸ rfl
  rw [extensionParts_append] at hnone
  exact List.append_eq_nil_iff.1 hnone

/-- The types of a schema that is made of some definitions are put together in their order. -/
theorem Schema.MadeOf.putTogether {s : Schema} {ds : List WrittenDefinition} (h : s.MadeOf ds)
    {name : String} {t : NamedType} (ht : s.type? name = some t) : t.PutTogether ds := by
  rcases h.types.cases ht with ⟨scalar, -, rfl⟩ | ⟨⟨path, d⟩, hd, rfl, -⟩
  · exact .builtIn rfl
  have hheld := h.types
  rw [mem_typesIn, withIntrospection] at hd
  rw [withIntrospection] at hheld
  -- the definition is written in one of the sources, or it is that of an introspection type
  rcases List.mem_append.1 hd with hd | hd
  · obtain ⟨before, after, rfl⟩ := List.append_of_mem hd
    rw [List.append_assoc, List.cons_append] at hheld
    obtain ⟨hbefore, hafter, hassembled⟩ := hheld.assembled_merged ht
    have hnone (name : String) : extensionParts name
        (Introspection.definitions.map fun d => (Introspection.path, d)) = [] := rfl
    rw [extensionParts_append, hnone, List.append_nil] at hassembled
    rw [typeNamesIn_append, List.mem_append, not_or] at hafter
    exact .written rfl hbefore hafter.1 hassembled
  · obtain ⟨before, after, hsplit⟩ := List.append_of_mem hd
    rw [hsplit, ← List.append_assoc] at hheld
    obtain ⟨hbefore, -, hassembled⟩ := hheld.assembled_merged ht
    obtain ⟨hnone, hnone'⟩ : extensionParts d.name before = [] ∧ extensionParts d.name after = [] :=
      extensionParts_introspection hsplit
    rw [extensionParts_append, hnone, hnone', List.append_nil, List.nil_append] at hassembled
    rw [typeNamesIn_append, List.mem_append, not_or] at hbefore
    obtain ⟨d', hd', heq⟩ := List.mem_map.1 hd
    obtain ⟨rfl, rfl⟩ := Prod.mk.inj heq
    exact .introspection hd' hbefore.1 hassembled

end Order

/-- Every type of a schema that is built of some sources has the members and the interfaces of its
definition in written order, then those of the extensions after the definition in load order, and
then those of the extensions before it in load order. Extensions of introspection types all count as
coming before. -/
theorem types_assembled_in_order (sources : List (Option Path × String)) {s : Schema}
    (hbuild : (sources.foldlM (fun b source => b.load source.1 source.2) Builder.empty >>=
      Builder.build) = .ok s) {name : String} {t : NamedType} (ht : s.type? name = some t) :
    t.name = name ∧ t.PutTogether (writtenFrom 0 sources) := by
  obtain ⟨b, hload, hbuild⟩ := bind_eq_ok.1 hbuild
  have hb : Loaded (writtenFrom 0 sources) b := Loaded.empty.foldlM_load hload
  have hmade : s.MadeOf (writtenFrom 0 sources) := .of_build hb hbuild
  exact ⟨hmade.types.name_of_get? ht, hmade.putTogether ht⟩

namespace AroundDefinition

/-- The path of the source below. -/
def path : Path := ⟨"around.graphql"⟩

/-- A source that extends a type before and after its definition, and an introspection type. -/
def source : String :=
  "extend type Query { early: Int } type Query { f: Int }
extend type Query { late: Int } extend type __Type { further: Int }"

end AroundDefinition

/-- The root type of queries is put together from a definition with extensions around it. -/
theorem types_assembled_in_order_aroundDefinition :
    ∃ s t, ([(some AroundDefinition.path, AroundDefinition.source)].foldlM
        (fun b source => b.load source.1 source.2) Builder.empty >>= Builder.build) = .ok s ∧
      s.type? s.query.name = some t ∧ t.name = s.query.name ∧
      t.PutTogether (writtenFrom 0 [(some AroundDefinition.path, AroundDefinition.source)]) := by
  have hpath : AroundDefinition.path.same Introspection.path = false := by decide +kernel
  have hsource : makesUpSchema AroundDefinition.path AroundDefinition.source = true := by
    decide +kernel
  obtain ⟨s, hbuild⟩ := exists_build_of_source hpath hsource
  obtain ⟨ds, b, hb, hbuilt, -⟩ := exists_loaded_of_build hbuild
  have hmade : s.MadeOf ds := .of_build hb hbuilt
  obtain ⟨t, ht, -⟩ : ∃ t, s.rootType? .query = some (.object t) ∧ t.name = s.query.name :=
    hmade.root_found rfl
  exact ⟨s, .object t, hbuild, ht, types_assembled_in_order _ hbuild ht⟩

end GraphQLCheck
