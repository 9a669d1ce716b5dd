import GraphQLCheck.Proofs.Schema.Merging
import GraphQLCheck.Proofs.Schema.Roots

/-!
# What a builder holds

`Loaded` says what a builder holds after a list of written definitions. Each operation of the
builder keeps `Loaded` if it succeeds (`Loaded.step`), and succeeds if what has been written so far
is `Compatible` (`Loaded.exists_step`).

Main statements: a list that can be loaded leads to a builder that holds just what is written
(`Loaded.foldlM`), and every compatible list can be loaded (`Loaded.exists_foldlM`).
-/

namespace GraphQLCheck

open TypeSystem (TypeDefinition TypeExtension DirectiveDefinition SchemaBlock)

namespace Builder

variable {b b' : Builder} {path : Path}

/-- A definition of a type that is taken is sound by itself, and its name is new. The type is added
at the end. -/
theorem of_addType {d : TypeDefinition} (hok : b.addType path d = .ok b') :
    ∃ t, NamedType.ofDefinition path d = .ok t ∧ b.types.get? d.name = none ∧
      b' = { b with types := b.types.insert d.name t } := by
  obtain ⟨t, hdefinition, hok⟩ := bind_eq_ok.1 hok
  cases hget : b.types.get? d.name with
  | some first => rw [hget] at hok; exact nomatch hok
  | none =>
    rw [hget] at hok
    exact ⟨t, hdefinition, rfl, (pure_eq_ok.1 hok).symm⟩

/-- An extension that is taken is merged if its type is there, and else kept. -/
theorem of_addExtension {e : TypeExtension} (hok : b.addExtension path e = .ok b') :
    (∃ t t', b.types.get? e.name = some t ∧ t.extend path e = .ok t' ∧
      b' = { b with types := b.types.insert e.name t' }) ∨
    b.types.get? e.name = none ∧ b' = { b with pending := b.pending ++ [(path, e)] } := by
  rw [addExtension] at hok
  cases hget : b.types.get? e.name with
  | some t =>
    rw [hget] at hok
    obtain ⟨t', hextend, hok⟩ := bind_eq_ok.1 hok
    exact .inl ⟨t, t', rfl, hextend, (pure_eq_ok.1 hok).symm⟩
  | none =>
    rw [hget] at hok
    exact .inr ⟨rfl, (Except.ok.inj hok).symm⟩

/-- A definition of a directive that is taken may have its name, and the name is new. The directive
is added at the end. -/
theorem of_addDirective {d : DirectiveDefinition} (hok : b.addDirective path d = .ok b') :
    WrittenDefinition.NameAllowed (path, .directive d) ∧ b.directives.get? d.name = none ∧
      b' = { b with directives := b.directives.insert d.name (.written path d) } := by
  rw [addDirective] at hok
  cases hbuiltIn : DirectiveDef.builtIns.any (·.name = d.name) with
  | true => rw [hbuiltIn] at hok; exact nomatch hok
  | false =>
    rw [hbuiltIn] at hok
    cases hreserved : isReservedName d.name with
    | true => rw [hreserved] at hok; exact nomatch hok
    | false =>
      rw [hreserved] at hok
      cases hget : b.directives.get? d.name with
      | some first => rw [hget] at hok; exact nomatch hok
      | none =>
        rw [hget] at hok
        exact ⟨⟨hbuiltIn, hreserved⟩, rfl, (pure_eq_ok.1 hok).symm⟩

end Builder

/-- Whether a builder holds what is written, in that order, where the extensions that come before
their types have been kept. -/
structure Loaded (ds : List WrittenDefinition) (b : Builder) : Prop where
  types : TypesHeld (typesIn ds) (lateExtensions ds) b.types
  pending : b.pending = earlyExtensions ds
  directives : b.directives.entries = (directivesIn ds).map fun d => (d.2.name, .written d.1 d.2)
  roots : RootsHeld (rootsIn ds) b
  rootTypes : ((rootsIn ds).map fun r => r.2.type).Nodup
  names : ∀ x ∈ ds, x.NameAllowed

/-- Whether definitions, in whatever order they are written, agree with one another as far as can be
told before all are known: they may have their names, no name and no root is given twice, and the
extensions of a type go together with its definition. -/
structure Compatible (ds : List WrittenDefinition) : Prop where
  names : ∀ x ∈ ds, x.NameAllowed
  types : (builtInNames ++ typeNamesIn ds).Nodup
  /-- No built-in scalar is extended. -/
  custom : ∀ e ∈ extensionsIn ds, e.2.name ∉ builtInNames
  merge : AllMerge (typesIn ds) (extensionsIn ds)
  directives : ((directivesIn ds).map fun d => d.2.name).Nodup
  roots : ((rootsIn ds).map Prod.fst).Nodup
  rootTypes : ((rootsIn ds).map fun r => r.2.type).Nodup

/-- Definitions at the beginning agree if all do. -/
theorem Compatible.left {ds ds' : List WrittenDefinition} (h : Compatible (ds ++ ds')) :
    Compatible ds := by
  obtain ⟨hnames, htypes, hcustom, hmerge, hdirectives, hroots, hrootTypes⟩ := h
  rw [typeNamesIn_append, ← List.append_assoc] at htypes
  rw [extensionsIn_append] at hcustom hmerge
  rw [typesIn_append] at hmerge
  rw [directivesIn_append, List.map_append] at hdirectives
  rw [rootsIn_append, List.map_append] at hroots hrootTypes
  exact ⟨(List.forall_mem_append.1 hnames).1, (List.nodup_append.1 htypes).1,
    (List.forall_mem_append.1 hcustom).1, hmerge.left.subset (List.subset_append_left _ _),
    (List.nodup_append.1 hdirectives).1, (List.nodup_append.1 hroots).1,
    (List.nodup_append.1 hrootTypes).1⟩

namespace Loaded

variable {ds : List WrittenDefinition} {b b' : Builder} {path : Path}

/-- Nothing has been loaded into an empty builder. -/
theorem empty : Loaded [] .empty where
  types := .empty
  pending := rfl
  directives := rfl
  roots := ⟨List.nodup_nil, fun kind r => by
    cases kind <;> exact ⟨fun h => (nomatch h), fun h => nomatch h⟩⟩
  rootTypes := List.nodup_nil
  names _ h := nomatch h

/-- The types that a builder holds are the built-in scalars and those that have been defined. -/
theorem mem_keys_iff (h : Loaded ds b) (name : String) :
    name ∈ b.types.keys ↔ name ∈ builtInNames ++ typeNamesIn ds := by
  rw [h.types.keys]
  rfl

section Concat

variable {x : WrittenDefinition}

/-- The types are as before after something else than a type or an extension. -/
private theorem types_concat (h : Loaded ds b) (htype : x.type? = none)
    (hextension : x.extension? = none) :
    TypesHeld (typesIn (ds ++ [x])) (lateExtensions (ds ++ [x])) b.types := by
  rw [typesIn_concat_of_none ds htype, lateExtensions, extensionsFrom_concat_of_none ds hextension]
  exact h.types

/-- The extensions that are kept are as before after something else than an extension. -/
private theorem pending_concat (h : Loaded ds b) (hextension : x.extension? = none) :
    b.pending = earlyExtensions (ds ++ [x]) := by
  rw [earlyExtensions, extensionsFrom_concat_of_none ds hextension]
  exact h.pending

/-- The directives are as before after something else than a directive. -/
private theorem directives_concat (h : Loaded ds b) (hdirective : x.directive? = none) :
    b.directives.entries =
      (directivesIn (ds ++ [x])).map fun d => (d.2.name, .written d.1 d.2) := by
  rw [directivesIn_concat_of_none ds hdirective]
  exact h.directives

/-- The roots are as before after something else than a schema block. -/
private theorem roots_concat (h : Loaded ds b) (hroots : x.roots = [])
    (hsame : b'.root? = b.root?) : RootsHeld (rootsIn (ds ++ [x])) b' := by
  rw [rootsIn_concat_of_nil ds hroots]
  refine ⟨h.roots.once, ?_⟩
  rw [hsame]
  exact h.roots.declared

/-- The roots still differ from one another after something else than a schema block. -/
private theorem rootTypes_concat (h : Loaded ds b) (hroots : x.roots = []) :
    ((rootsIn (ds ++ [x])).map fun r => r.2.type).Nodup := by
  rw [rootsIn_concat_of_nil ds hroots]
  exact h.rootTypes

/-- What may have its name may come after what is loaded. -/
private theorem names_concat (h : Loaded ds b) (hx : x.NameAllowed) :
    ∀ y ∈ ds ++ [x], y.NameAllowed :=
  List.forall_mem_append.2 ⟨h.names, List.forall_mem_singleton.2 hx⟩

end Concat

/-- A schema block that is taken adds its roots. -/
theorem addSchemaBlock (h : Loaded ds b) {d : SchemaBlock}
    (hok : b.addSchemaBlock path d = .ok b') :
    Loaded (ds ++ [(path, .schema d)]) b' := by
  obtain ⟨b₁, hfold, hok⟩ := bind_eq_ok.1 hok
  obtain ⟨_, hqm, hok⟩ := bind_eq_ok.1 hok
  obtain ⟨_, hqs, hok⟩ := bind_eq_ok.1 hok
  obtain ⟨_, hms, hok⟩ := bind_eq_ok.1 hok
  obtain rfl := pure_eq_ok.1 hok
  obtain ⟨hsame, hroots⟩ := h.roots.foldlM_declareNamedRoot hfold
  have hrootsIn := rootsIn_concat_schema ds path d
  refine
    { types := hsame.types ▸ h.types_concat rfl rfl
      pending := hsame.pending ▸ h.pending_concat rfl
      directives := hsame.directives ▸ h.directives_concat rfl
      roots := ?roots
      rootTypes := ?rootTypes
      names := h.names_concat trivial }
  case roots =>
    rw [hrootsIn]
    exact hroots
  case rootTypes =>
    rw [hrootsIn]
    exact hroots.nodup_types_iff.2 ⟨hqm, hqs, hms⟩

/-- A schema block is taken if no kind has a root twice then, and no two kinds the same root. -/
theorem exists_addSchemaBlock (h : Loaded ds b) {d : SchemaBlock}
    (honce : ((rootsIn ds ++ d.roots path).map Prod.fst).Nodup)
    (htypes : ((rootsIn ds ++ d.roots path).map fun r => r.2.type).Nodup) :
    ∃ b', b.addSchemaBlock path d = .ok b' := by
  obtain ⟨b', hfold⟩ := h.roots.exists_foldlM_declareNamedRoot honce
  obtain ⟨-, hroots⟩ := h.roots.foldlM_declareNamedRoot hfold
  obtain ⟨hqm, hqs, hms⟩ := hroots.nodup_types_iff.1 htypes
  refine ⟨b', bind_eq_ok.2 ⟨b', hfold, ?_⟩⟩
  exact bind_eq_ok.2 ⟨_, hqm, bind_eq_ok.2 ⟨_, hqs, bind_eq_ok.2 ⟨_, hms, rfl⟩⟩⟩

/-- A definition of a type that is taken adds the type. -/
theorem addType (h : Loaded ds b) {d : TypeDefinition} (hok : b.addType path d = .ok b') :
    Loaded (ds ++ [(path, .type d)]) b' := by
  obtain ⟨t, hdefinition, hget, rfl⟩ := Builder.of_addType hok
  obtain ⟨hguard, -⟩ := NamedType.adds_of_ofDefinition hdefinition
  refine
    { types := ?types
      pending := h.pending_concat rfl
      directives := h.directives_concat rfl
      roots := h.roots_concat rfl rfl
      rootTypes := h.rootTypes_concat rfl
      names := h.names_concat hguard }
  case types =>
    rw [typesIn_append, lateExtensions, extensionsFrom_concat_of_none ds rfl]
    exact h.types.insert (d := (path, d)) hget (.of_ofDefinition hdefinition)

/-- A definition of a type is taken if the type may have its name, the name is new, and the members
of the definition go together. -/
theorem exists_addType (h : Loaded ds b) {d : TypeDefinition}
    (hguard : (isReservedName d.name && !path.same Introspection.path) = false)
    (hnew : d.name ∉ builtInNames ++ typeNamesIn ds)
    (hmerges : Merges d.name d.body.kind [d.body]) : ∃ b', b.addType path d = .ok b' := by
  obtain ⟨t, hdefinition⟩ := Assembled.exists_ofDefinition hguard hmerges
  have hget : b.types.get? d.name = none :=
    OrderedMap.get?_eq_none_iff.2 fun hmem => hnew ((h.mem_keys_iff d.name).1 hmem)
  refine ⟨{ b with types := b.types.insert d.name t }, bind_eq_ok.2 ⟨t, hdefinition, ?_⟩⟩
  rw [hget]
  rfl

/-- An extension that is taken is merged if its type is there, and else kept. -/
theorem addExtension (h : Loaded ds b) {e : TypeExtension} (hok : b.addExtension path e = .ok b') :
    Loaded (ds ++ [(path, .extension e)]) b' := by
  have hknown := h.mem_keys_iff e.name
  -- whether the type is there is whether the extension is late
  rcases Builder.of_addExtension hok with ⟨t, t', hget, hextend, rfl⟩ | ⟨hget, rfl⟩
  · have hlate := decide_eq_true (hknown.1 (OrderedMap.mem_keys_of_get? hget))
    refine
      { types := ?_
        pending := ?_
        directives := h.directives_concat rfl
        roots := h.roots_concat rfl rfl
        rootTypes := h.rootTypes_concat rfl
        names := h.names_concat trivial }
    · rw [typesIn_concat_of_none ds rfl, lateExtensions, extensionsFrom_concat, if_pos hlate]
      exact h.types.merge (TypesHeld.mergePending_eq_ok hget hextend)
    · rw [earlyExtensions, extensionsFrom_concat, if_neg (by rw [hlate]; decide), List.append_nil]
      exact h.pending
  · have hearly := decide_eq_false (mt hknown.2 (OrderedMap.get?_eq_none_iff.1 hget))
    refine
      { types := ?_
        pending := ?_
        directives := h.directives_concat rfl
        roots := h.roots_concat rfl rfl
        rootTypes := h.rootTypes_concat rfl
        names := h.names_concat trivial }
    · rw [typesIn_concat_of_none ds rfl, lateExtensions, extensionsFrom_concat,
        if_neg (by rw [hearly]; decide), List.append_nil]
      exact h.types
    · rw [earlyExtensions, extensionsFrom_concat, if_pos hearly]
      exact congrArg (· ++ [(path, e)]) h.pending

/-- An extension is taken if its type is not there yet, or goes together with what has been
merged. -/
theorem exists_addExtension (h : Loaded ds b) {e : TypeExtension}
    (hdefined : e.name ∈ builtInNames ++ typeNamesIn ds → e.name ∈ typeNamesIn ds)
    (hmerge : e.name ∈ typeNamesIn ds →
      AllMerge (typesIn ds) (lateExtensions ds ++ [(path, e)])) :
    ∃ b', b.addExtension path e = .ok b' := by
  rw [Builder.addExtension]
  cases hget : b.types.get? e.name with
  | some t =>
    have hname := hdefined ((h.mem_keys_iff e.name).1 (OrderedMap.mem_keys_of_get? hget))
    obtain ⟨t', hextend⟩ := h.types.exists_extend (e := (path, e)) hget hname (hmerge hname)
    exact ⟨_, bind_eq_ok.2 ⟨t', hextend, rfl⟩⟩
  | none => exact ⟨_, rfl⟩

/-- A definition of a directive that is taken adds the directive. -/
theorem addDirective (h : Loaded ds b) {d : DirectiveDefinition}
    (hok : b.addDirective path d = .ok b') : Loaded (ds ++ [(path, .directive d)]) b' := by
  obtain ⟨hname, hget, rfl⟩ := Builder.of_addDirective hok
  refine
    { types := h.types_concat rfl rfl
      pending := h.pending_concat rfl
      directives := ?directives
      roots := h.roots_concat rfl rfl
      rootTypes := h.rootTypes_concat rfl
      names := h.names_concat hname }
  case directives =>
    rw [directivesIn_append, List.map_append, ← h.directives]
    exact OrderedMap.entries_insert_of_not_mem (OrderedMap.get?_eq_none_iff.1 hget)

/-- A definition of a directive is taken if the directive may have its name, and the name is new. -/
theorem exists_addDirective (h : Loaded ds b) {d : DirectiveDefinition}
    (hname : WrittenDefinition.NameAllowed (path, .directive d))
    (hnew : d.name ∉ (directivesIn ds).map fun d => d.2.name) :
    ∃ b', b.addDirective path d = .ok b' := by
  have hget : b.directives.get? d.name = none := by
    rw [OrderedMap.get?_eq_none_iff, OrderedMap.keys, h.directives, List.map_map]
    exact hnew
  rw [Builder.addDirective, hname.1, hname.2, hget]
  exact ⟨_, rfl⟩

/-- Each definition that is taken is held. -/
theorem step {x : WrittenDefinition} (h : Loaded ds b) (hok : b.addDefinition x.1 x.2 = .ok b') :
    Loaded (ds ++ [x]) b' := by
  obtain ⟨path, d⟩ := x
  cases d with
  | schema d => exact h.addSchemaBlock hok
  | type d => exact h.addType hok
  | extension e => exact h.addExtension hok
  | directive d => exact h.addDirective hok

/-- A definition that agrees with what has been loaded is taken. -/
theorem exists_step {x : WrittenDefinition} (h : Loaded ds b)
    (hcompatible : Compatible (ds ++ [x])) : ∃ b', b.addDefinition x.1 x.2 = .ok b' := by
  obtain ⟨path, d⟩ := x
  have hname := hcompatible.names (path, d) (List.mem_append_right ds (List.mem_singleton.2 rfl))
  cases d with
  | schema d =>
    have hroots := rootsIn_concat_schema ds path d
    exact h.exists_addSchemaBlock (hroots ▸ hcompatible.roots) (hroots ▸ hcompatible.rootTypes)
  | type d =>
    have hnew : d.name ∉ builtInNames ++ typeNamesIn ds := by
      have htypes := hcompatible.types
      rw [typeNamesIn_append, ← List.append_assoc] at htypes
      intro hmem
      exact (List.nodup_append.1 htypes).2.2 _ hmem _ (List.mem_singleton.2 rfl) rfl
    have hmem : (path, d) ∈ typesIn (ds ++ [(path, .type d)]) := by
      rw [typesIn_append]
      exact List.mem_append_right _ (List.mem_singleton.2 rfl)
    -- the definition alone is a part of what goes together with all extensions
    have hmerges : Merges d.name d.body.kind [d.body] :=
      (hcompatible.merge (path, d) hmem).sublist (.cons_cons _ (List.nil_sublist _))
    exact h.exists_addType hname hnew hmerges
  | extension e =>
    have hextensions : extensionsIn (ds ++ [(path, .extension e)]) =
        extensionsIn ds ++ [(path, e)] := by
      rw [extensionsIn_append]
      rfl
    -- the name is not built in, so a type that is there has been defined
    obtain ⟨-, -, hcustom, hmerge, -, -, -⟩ := hcompatible
    rw [hextensions] at hcustom hmerge
    rw [typesIn_concat_of_none ds rfl] at hmerge
    refine h.exists_addExtension (fun hmem => ?_) (fun _ => ?_)
    · refine (List.mem_append.1 hmem).resolve_left ?_
      exact hcustom (path, e) (List.mem_append_right _ (List.mem_singleton.2 rfl))
    · -- the extensions that are early come last in another order
      have hperm : (extensionsIn ds ++ [(path, e)]).Perm
          (lateExtensions ds ++ [(path, e)] ++ earlyExtensions ds) := by
        refine ((perm_extensionsIn builtInNames ds).symm.append_right _).trans ?_
        rw [List.append_assoc, List.append_assoc]
        exact .append_left _ List.perm_append_comm
      exact (hmerge.perm hperm).left
  | directive d =>
    have hdirectives := hcompatible.directives
    rw [directivesIn_append, List.map_append] at hdirectives
    refine h.exists_addDirective hname fun hmem => ?_
    exact (List.nodup_append.1 hdirectives).2.2 _ hmem _ (List.mem_singleton.2 rfl) rfl

/-- What has been loaded is held, after whatever has been loaded before. -/
theorem foldlM {pre : List WrittenDefinition} (h : Loaded pre b)
    (hok : ds.foldlM (fun b x => b.addDefinition x.1 x.2) b = .ok b') : Loaded (pre ++ ds) b' :=
  foldlM_invariant step h hok

/-- Definitions that agree with one another and with what has been loaded before can be loaded. -/
theorem exists_foldlM {pre : List WrittenDefinition} (h : Loaded pre b)
    (hcompatible : Compatible (pre ++ ds)) :
    ∃ b', ds.foldlM (fun b x => b.addDefinition x.1 x.2) b = .ok b' :=
  exists_foldlM_of_step step exists_step Compatible.left h hcompatible

end Loaded

end GraphQLCheck
