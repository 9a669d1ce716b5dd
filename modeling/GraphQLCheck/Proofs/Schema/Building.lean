import GraphQLCheck.Proofs.Schema.Loading
import GraphQLCheck.Proofs.Schema.References

/-!
# What building a schema comes to

A schema is built of what has been loaded, and of the introspection types. `mergedExtensions` lists
all extensions in the order in which they are merged in the end.

Main statements: which types a builder has once all extensions are merged (`Loaded.merged`), when
these refer to one another as they may (`TypesHeld.referenceErrors_eq_nil_iff`), and what else is
checked (`Builder.build_eq_ok_iff`).
-/

namespace GraphQLCheck

open TypeSystem (TypeDefinition TypeExtension)

/-- Some definitions, and after them those of the introspection types. -/
def withIntrospection (ds : List WrittenDefinition) : List WrittenDefinition :=
  ds ++ Introspection.definitions.map fun d => (Introspection.path, d)

/-- The introspection types come without directives. -/
@[simp]
theorem directivesIn_withIntrospection (ds : List WrittenDefinition) :
    directivesIn (withIntrospection ds) = directivesIn ds := by
  rw [withIntrospection, directivesIn_append]
  exact List.append_nil _

/-- The introspection types come without schema blocks. -/
@[simp]
theorem rootsIn_withIntrospection (ds : List WrittenDefinition) :
    rootsIn (withIntrospection ds) = rootsIn ds := by
  rw [withIntrospection, rootsIn_append]
  exact List.append_nil _

/-- Besides the types that are written there are the introspection types. -/
theorem mem_typesIn_withIntrospection {ds : List WrittenDefinition} {path : Path}
    {d : TypeDefinition} :
    (path, d) ∈ typesIn (withIntrospection ds) ↔
      (path, d) ∈ typesIn ds ∨ path = Introspection.path ∧ d ∈ Introspection.typeDefinitions := by
  rw [mem_typesIn, mem_typesIn, withIntrospection, List.mem_append]
  refine or_congr_right ⟨fun h => ?_, ?_⟩
  · obtain ⟨_, hmem, heq⟩ := List.mem_map.1 h
    obtain ⟨rfl, rfl⟩ := Prod.mk.inj heq
    obtain ⟨d', hd', heq⟩ := List.mem_map.1 hmem
    obtain rfl := TypeSystem.Definition.type.inj heq
    exact ⟨rfl, hd'⟩
  · rintro ⟨rfl, hd⟩
    exact List.mem_map_of_mem (List.mem_map_of_mem hd)

/-- Whether a name stands for a type of some kind: a scalar that is built in, or a type that is
defined. -/
def DefinedAs (ds : List WrittenDefinition) (name : String) (kind : TypeKind) : Prop :=
  name ∈ builtInNames ∧ kind = .scalar ∨ ∃ d ∈ typesIn ds, d.2.name = name ∧ d.2.body.kind = kind

/-- Whether a name stands for a type of some kind is decidable. -/
instance (ds : List WrittenDefinition) (name : String) (kind : TypeKind) :
    Decidable (DefinedAs ds name kind) := by
  unfold DefinedAs
  infer_instance

namespace TypesHeld

variable {ds : List WrittenDefinition} {es : List (Path × TypeExtension)} {types types' : TypeMap}

/-- The types that are held have the kinds that they are defined with. -/
theorem hasKind_iff (h : TypesHeld (typesIn ds) es types) (name : String) (kind : TypeKind) :
    types.HasKind name kind ↔ DefinedAs ds name kind := by
  constructor
  · rintro ⟨t, ht, rfl⟩
    rcases h.cases ht with ⟨s, rfl, rfl⟩ | ⟨d, hd, hname, hassembled⟩
    · exact .inl ⟨by cases s <;> decide, rfl⟩
    · exact .inr ⟨d, hd, hname, hassembled.kind.symm⟩
  · rintro (⟨hname, rfl⟩ | ⟨d, hd, rfl, rfl⟩)
    · obtain ⟨s, -, rfl⟩ := List.mem_map.1 hname
      exact ⟨.builtIn s, h.builtIn s, rfl⟩
    · obtain ⟨t, ht, hassembled⟩ := h.custom d hd
      exact ⟨t, ht, hassembled.kind⟩

/-- Names stand for the types that are held as they do for those that are defined. -/
theorem hasKind_eq (h : TypesHeld (typesIn ds) es types) : types.HasKind = DefinedAs ds := by
  funext name kind
  exact propext (h.hasKind_iff name kind)

/-- The types that are held refer to one another as they may just if they do so as written. -/
theorem referenceErrors_eq_nil_iff (h : TypesHeld (typesIn ds) es types) :
    types.referenceErrors = [] ↔ ∀ d ∈ typesIn ds,
      (∀ body ∈ bodiesOf d.2 es, body.Resolves (DefinedAs ds)) ∧
      (d.2.body.kind = .enum →
        (bodiesOf d.2 es).flatMap TypeSystem.Body.memberNames ≠ []) := by
  -- members and interfaces of a type are those of its parts, so both sides speak of the same names
  have hparts {d : Path × TypeDefinition} {t : NamedType}
      (ht : Assembled d.1 d.2 (partsOf d es) t) :
      ((∀ r ∈ t.interfaces, types.HasKind r.name .interface) ∧
        (∀ e ∈ t.entries, e.2.Resolves types.HasKind e.1) ∧ (t.kind = .enum → t.entries ≠ [])) ↔
      (∀ body ∈ bodiesOf d.2 es, body.Resolves (DefinedAs ds)) ∧
        (d.2.body.kind = .enum →
          (bodiesOf d.2 es).flatMap TypeSystem.Body.memberNames ≠ []) := by
    have hnil : t.entries.map Prod.fst ≠ [] ↔ t.entries ≠ [] := not_congr List.map_eq_nil_iff
    rw [← map_body_partsOf, Assembled.flatMap_memberNames, ← ht.entries, ht.kind, ← and_assoc,
      List.forall_mem_map, h.hasKind_eq, hnil]
    refine and_congr_left fun _ => ?_
    simp only [Part.resolves_iff]
    rw [ht.interfaces, ht.entries]
    simp only [List.mem_flatMap]
    constructor
    · rintro ⟨hinterfaces, hentries⟩ part hpart
      exact ⟨fun r hr => hinterfaces r ⟨part, hpart, hr⟩, fun e he => hentries e ⟨part, hpart, he⟩⟩
    · intro hall
      exact ⟨fun r ⟨part, hpart, hr⟩ => (hall part hpart).1 r hr,
        fun e ⟨part, hpart, he⟩ => (hall part hpart).2 e he⟩
  rw [TypeMap.referenceErrors_eq_nil_iff]
  constructor
  · intro hall d hd
    obtain ⟨t, ht, hassembled⟩ := h.custom d hd
    exact (hparts hassembled).1 (hall _ t ht)
  · intro hall name t ht
    rcases h.cases ht with ⟨s, -, rfl⟩ | ⟨d, hd, -, hassembled⟩
    · exact ⟨fun _ hr => (nomatch hr), fun _ he => (nomatch he), fun hkind => nomatch hkind⟩
    · exact (hparts hassembled).2 (hall d hd)

end TypesHeld

/-- Sorting a list by kinds, of which no kind comes twice, keeps what is in it. -/
theorem flatMap_filter_perm {α κ : Type} [DecidableEq κ] {kind : α → κ} {kinds : List κ}
    {xs : List α} (hnodup : kinds.Nodup) (hkinds : ∀ x ∈ xs, kind x ∈ kinds) :
    (kinds.flatMap fun k => xs.filter fun x => kind x = k).Perm xs := by
  -- what is of the first kind is taken out of the list before the next kind comes
  induction kinds generalizing xs with
  | nil =>
    rw [List.eq_nil_iff_forall_not_mem.2 fun x hx => List.not_mem_nil (hkinds x hx)]
    exact .nil
  | cons k kinds ih =>
    obtain ⟨hk, hnodup⟩ := List.nodup_cons.1 hnodup
    let rest := xs.filter fun x => !decide (kind x = k)
    -- what is of another kind is found in the rest
    have hrest (k' : κ) (hk' : k' ∈ kinds) :
        (xs.filter fun x => kind x = k') = rest.filter fun x => kind x = k' := by
      rw [List.filter_filter]
      refine List.filter_congr fun x _ => ?_
      by_cases hx : kind x = k'
      · have hne : kind x ≠ k := fun heq => hk (heq ▸ hx ▸ hk')
        simp [hx, hx ▸ hne]
      · simp [hx]
    have hperm := @ih rest hnodup fun x hx => by
      obtain ⟨hmem, hne⟩ := List.mem_filter.1 hx
      exact (List.mem_cons.1 (hkinds x hmem)).resolve_left (by simpa using hne)
    have hflat : (kinds.flatMap fun k' => xs.filter fun x => kind x = k') =
        kinds.flatMap fun k' => rest.filter fun x => kind x = k' :=
      congrArg List.flatten (List.map_congr_left hrest)
    rw [List.flatMap_cons, hflat]
    exact (hperm.append_left _).trans (List.filter_append_perm _ xs)

/-- The extensions in the order in which they are merged: the early ones come last, kind by kind. -/
def mergedExtensions (ds : List WrittenDefinition) : List (Path × TypeExtension) :=
  lateExtensions ds ++ Builder.mergeOrder.flatMap fun kind =>
    (earlyExtensions ds).filter fun e => e.2.body.kind = kind

/-- Every extension is merged once. -/
theorem mergedExtensions_perm (ds : List WrittenDefinition) :
    (mergedExtensions ds).Perm (extensionsIn ds) := by
  refine .trans (.append_left _ (flatMap_filter_perm (by decide) fun e _ => ?_))
    (perm_extensionsIn builtInNames ds)
  cases e.2.body.kind <;> decide

/-- The extensions that a builder has kept are the early ones. -/
theorem Loaded.orderedPending {ds : List WrittenDefinition} {b : Builder} (h : Loaded ds b) :
    lateExtensions ds ++ b.orderedPending = mergedExtensions ds := by
  rw [Builder.orderedPending, h.pending]
  rfl

/-- The types that a builder has once the extensions that it has kept are merged. -/
theorem Loaded.merged {ds : List WrittenDefinition} {b : Builder} {types : TypeMap}
    (h : Loaded ds b) (hok : b.orderedPending.foldlM Builder.mergePending b.types = .ok types) :
    TypesHeld (typesIn ds) (mergedExtensions ds) types := by
  -- the early extensions are merged after the late ones have been
  rw [← h.orderedPending]
  exact h.types.foldlM_merge hok

namespace Builder

/-- The definitions of a source are taken one after the other. -/
theorem addDefinitions_eq (b : Builder) (path : Path) (ds : List TypeSystem.Definition) :
    b.addDefinitions path ds =
      (ds.map fun d => (path, d)).foldlM (fun b x => b.addDefinition x.1 x.2) b := by
  rw [List.foldlM_map]
  rfl

/-- A built-in directive is found unless its name has been taken. -/
theorem get?_withBuiltInDirectives (m : OrderedMap DirectiveDef) (name : String) :
    (withBuiltInDirectives m).get? name =
      (m.get? name).or (DirectiveDef.builtIns.find? (·.name = name)) := by
  unfold withBuiltInDirectives
  -- directives are added one by one, so this is about maps that have some of them already
  generalize DirectiveDef.builtIns = ds
  induction ds generalizing m with
  | nil => rw [List.foldl_nil, List.find?_nil, Option.or_none]
  | cons d ds ih =>
    rw [List.foldl_cons, ih]
    by_cases hname : d.name = name
    · subst hname
      rw [List.find?_cons_of_pos (by simp), OrderedMap.contains]
      cases hget : m.get? d.name with
      | some first => rw [Option.isSome_some, if_pos rfl, hget]; rfl
      | none =>
        rw [Option.isSome_none, if_neg Bool.false_ne_true, OrderedMap.get?_insert_self]
        rfl
    · rw [List.find?_cons_of_neg (by simpa using hname)]
      split
      · rfl
      · rw [OrderedMap.get?_insert_of_ne (Ne.symm hname)]

variable {types : TypeMap} {kind : OperationKind}

/-- A name stands for an object if an object is found under it. -/
private theorem hasKind_object_iff {name : String} :
    types.HasKind name .object ↔ ∃ t, types.get? name = some (.object t) := by
  constructor
  · rintro ⟨t, ht, hkind⟩
    cases t with
    | object t => exact ⟨t, ht⟩
    | _ => exact nomatch hkind
  · rintro ⟨t, ht⟩
    exact ⟨_, ht, rfl⟩

/-- A root that is declared is found if it is an object. -/
theorem resolveRoot_some_eq_ok_iff {r : RootDeclaration} {o : Option TypeReference} :
    resolveRoot types kind (some r) = .ok o ↔
      types.HasKind r.type .object ∧ o = some ⟨r.type, r.location⟩ := by
  rw [hasKind_object_iff, resolveRoot]
  split
  next t ht =>
    exact ⟨fun h => ⟨⟨t, ht⟩, (Except.ok.inj h).symm⟩, fun h => congrArg Except.ok h.2.symm⟩
  next hnot => exact ⟨fun h => (nomatch h), fun ⟨⟨t, ht⟩, _⟩ => absurd ht (hnot t)⟩

/-- A root that is not declared is found if the default name stands for an object. -/
theorem resolveRoot_none_eq_ok_some_iff :
    (∃ r, resolveRoot types kind none = .ok (some r)) ↔
      types.HasKind kind.defaultTypeName .object := by
  rw [hasKind_object_iff, resolveRoot]
  split
  next t ht => exact ⟨fun _ => ⟨t, ht⟩, fun _ => ⟨_, rfl⟩⟩
  next hnot => exact ⟨fun ⟨_, h⟩ => (nomatch h), fun ⟨t, ht⟩ => absurd ht (hnot t)⟩

/-- A root that is not declared may be missing. -/
theorem exists_resolveRoot_none : ∃ o, resolveRoot types kind none = .ok o := by
  rw [resolveRoot]
  split
  next => exact ⟨_, rfl⟩
  next => exact ⟨_, rfl⟩

/-- A root that is not declared is the object with the default name, referred to from where the
object is defined. -/
theorem eq_some_iff_of_resolveRoot_none {o : Option TypeReference} {r : TypeReference}
    (h : resolveRoot types kind none = .ok o) :
    o = some r ↔ ∃ t, types.get? kind.defaultTypeName = some t ∧ t.kind = .object ∧
      r = ⟨kind.defaultTypeName, t.location⟩ := by
  rw [resolveRoot] at h
  split at h
  next t ht =>
    obtain rfl := Except.ok.inj h
    constructor
    · intro hr
      exact ⟨_, ht, rfl, (Option.some.inj hr).symm⟩
    · rintro ⟨t', ht', -, rfl⟩
      obtain rfl := Option.some.inj (ht.symm.trans ht')
      rfl
  next hnot =>
    obtain rfl := Except.ok.inj h
    refine ⟨fun hr => (nomatch hr), fun ⟨t, ht, hkind, _⟩ => ?_⟩
    cases t with
    | object t => exact absurd ht (hnot t)
    | _ => exact nomatch hkind

/-- What is checked when a schema is built, and what the schema consists of. -/
theorem build_eq_ok_iff {b : Builder} {s : Schema} :
    b.build = .ok s ↔ ∃ b',
      b.addDefinitions Introspection.path Introspection.definitions = .ok b' ∧
      b'.orderedPending.foldlM mergePending b'.types = .ok s.types ∧
      s.types.referenceErrors = [] ∧
      resolveRoot s.types .query b'.query = .ok (some s.query) ∧
      resolveRoot s.types .mutation b'.mutation = .ok s.mutation ∧
      resolveRoot s.types .subscription b'.subscription = .ok s.subscription ∧
      s.directives = withBuiltInDirectives b'.directives := by
  rw [build]
  constructor
  · intro h
    obtain ⟨b', hb', h⟩ := bind_eq_ok.1 h
    obtain ⟨types, htypes, h⟩ := bind_eq_ok.1 h
    -- the check of references stops the building before any root is resolved
    by_cases herrors : types.referenceErrors = []
    · simp only [herrors, ne_eq, not_true_eq_false, if_false] at h
      obtain ⟨query, hquery, h⟩ := bind_eq_ok.1 h
      cases query with
      | none => exact nomatch h
      | some query =>
        obtain ⟨mutation, hmutation, h⟩ := bind_eq_ok.1 h
        obtain ⟨subscription, hsubscription, h⟩ := bind_eq_ok.1 h
        obtain rfl := pure_eq_ok.1 h
        exact ⟨b', hb', htypes, herrors, hquery, hmutation, hsubscription, rfl⟩
    · simp only [ne_eq, herrors, not_false_eq_true, if_true] at h
      exact nomatch h
  · obtain ⟨types, directives, query, mutation, subscription⟩ := s
    rintro ⟨b', hb', htypes, herrors, hquery, hmutation, hsubscription, rfl⟩
    refine bind_eq_ok.2 ⟨b', hb', bind_eq_ok.2 ⟨types, htypes, ?_⟩⟩
    simp only [herrors, ne_eq, not_true_eq_false, if_false]
    refine bind_eq_ok.2 ⟨some query, hquery, bind_eq_ok.2 ⟨mutation, hmutation, ?_⟩⟩
    exact bind_eq_ok.2 ⟨subscription, hsubscription, rfl⟩

end Builder

end GraphQLCheck
