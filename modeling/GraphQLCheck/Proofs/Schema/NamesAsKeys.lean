import GraphQLCheck.Proofs.Schema.Sources

/-!
# Keys are names

Types, directives and their members carry their names, and are held in maps whose keys are given
separately wherever something is inserted. `NamedType.KeyedByNames` and `KeyedByNames` say that the
keys are the names.

Main statement: so they are in every builder that any loads lead to, and in every schema that is
built (`keyedByNames_of_reachable`).
-/

namespace GraphQLCheck

/-- Whether the members of a type and their parameters are held under their names, and the type
implements no interface twice. -/
structure NamedType.KeyedByNames (t : NamedType) : Prop where
  fields : ∀ fields, t.fields? = some fields → fields.KeyedBy FieldDef.name ∧
    ∀ f ∈ fields.values, f.parameters.KeyedBy InputDef.name
  inputFields : ∀ u, t = .inputObject u → u.fields.KeyedBy InputDef.name
  values : ∀ u, t = .enum u → u.values.KeyedBy EnumValueDef.name
  members : ∀ u, t = .union u → u.members.KeyedBy TypeReference.name
  interfaces : (t.interfaces.map TypeReference.name).Nodup

/-- Whether types and directives are held under their names, and their members and parameters are
too. -/
structure KeyedByNames (types : TypeMap) (directives : OrderedMap DirectiveDef) : Prop where
  typeNames : types.KeyedBy NamedType.name
  typeMembers : ∀ t ∈ types.values, t.KeyedByNames
  directiveNames : directives.KeyedBy DirectiveDef.name
  directiveParameters : ∀ d ∈ directives.values, d.parameters.KeyedBy InputDef.name

/-- The builders to which loads lead, one after the other. Between two of them the files may have
changed. -/
inductive Builder.Reachable : Builder → Prop
  | empty : Reachable .empty
  | load {b b' : Builder} {path : Option Path} {source : String} (h : Reachable b)
      (hok : b.load path source = .ok b') : Reachable b'
  | loadFile {b b' : Builder} {fs : FileSystem} {path : Path} (h : Reachable b)
      (hok : b.loadFile fs path = .ok b') : Reachable b'

/-- Whatever has been loaded is held as it is written. -/
theorem Builder.Reachable.exists_loaded {b : Builder} (h : b.Reachable) : ∃ ds, Loaded ds b := by
  induction h with
  | empty => exact ⟨[], .empty⟩
  | load _ hok ih => exact exists_loaded_of_load ih hok
  | loadFile _ hok ih => exact exists_loaded_of_loadFile ih hok

section Types

/-- A type is keyed by names if its members have the names under which they are listed. -/
theorem NamedType.KeyedByNames.of_entries {t : NamedType}
    (hentries : ∀ e ∈ t.entries, e.2.NamedBy e.1)
    (hinterfaces : (t.interfaces.map TypeReference.name).Nodup) : t.KeyedByNames where
  fields fields hfields := by
    have hnamed {e : String × FieldDef} (he : e ∈ fields.entries) :
        (MemberDef.field e.2).NamedBy e.1 :=
      hentries (e.1, .field e.2)
        (mem_entries_field_iff.2 ⟨fields, hfields, OrderedMap.get?_eq_some_iff.2 he⟩)
    refine ⟨fun e he => (hnamed he).1, fun f hf => ?_⟩
    obtain ⟨e, he, rfl⟩ := List.mem_map.1 hf
    exact (hnamed he).2
  inputFields u hu e he := by
    subst hu
    exact hentries (e.1, .inputField e.2) (List.mem_map.2 ⟨e, he, rfl⟩)
  values u hu e he := by
    subst hu
    exact hentries (e.1, .value e.2) (List.mem_map.2 ⟨e, he, rfl⟩)
  members u hu e he := by
    subst hu
    exact hentries (e.1, .member e.2) (List.mem_map.2 ⟨e, he, rfl⟩)
  interfaces := hinterfaces

/-- A type that is assembled from parts is keyed by names, since the parts are. -/
theorem Assembled.keyedByNames {path : Path} {d : TypeSystem.TypeDefinition} {parts : List Part}
    {t : NamedType} (h : Assembled path d parts t) : t.KeyedByNames := by
  refine .of_entries (fun e he => ?_) ?_
  · rw [h.entries] at he
    obtain ⟨part, -, he⟩ := List.mem_flatMap.1 he
    exact Part.namedBy_of_mem_entries he
  · rw [h.interfaces, ← flatMap_interfaceNames]
    exact h.merges.interfaces

variable {defs : List (Path × TypeSystem.TypeDefinition)}
  {es : List (Path × TypeSystem.TypeExtension)} {types : TypeMap}

/-- Types are held under their names. -/
theorem TypesHeld.keyedBy_name (h : TypesHeld defs es types) : types.KeyedBy NamedType.name :=
  fun _ he => h.name_of_get? (OrderedMap.get?_eq_some_iff.2 he)

/-- The types that are held are keyed by names. -/
theorem TypesHeld.keyedByNames (h : TypesHeld defs es types) :
    ∀ t ∈ types.values, t.KeyedByNames := by
  intro t ht
  obtain ⟨⟨name, t⟩, hentry, rfl⟩ := List.mem_map.1 ht
  rcases h.cases (OrderedMap.get?_eq_some_iff.2 hentry) with ⟨s, -, rfl⟩ | ⟨d, -, -, hassembled⟩
  · exact .of_entries (fun _ he => nomatch he) List.nodup_nil
  · exact hassembled.keyedByNames

end Types

/-- A directive that is written holds its parameters under their names. -/
theorem DirectiveDef.keyedBy_parameters_written (path : Path)
    (d : TypeSystem.DirectiveDefinition) :
    (written path d).parameters.KeyedBy InputDef.name := by
  refine OrderedMap.keyedBy_ofList fun e he => ?_
  obtain ⟨v, -, rfl⟩ := List.mem_map.1 he
  rfl

/-- The built-in directives hold their parameters under their names. -/
theorem DirectiveDef.keyedBy_parameters_builtIns :
    ∀ d ∈ builtIns, d.parameters.KeyedBy InputDef.name := by
  unfold OrderedMap.KeyedBy
  decide +kernel

variable {ds : List WrittenDefinition}

/-- A builder holds what has been loaded under its names. -/
theorem Loaded.keyedByNames {b : Builder} (h : Loaded ds b) :
    KeyedByNames b.types b.directives where
  typeNames := h.types.keyedBy_name
  typeMembers := h.types.keyedByNames
  directiveNames := by
    unfold OrderedMap.KeyedBy
    rw [h.directives]
    exact List.forall_mem_map.2 fun _ _ => rfl
  directiveParameters := by
    unfold OrderedMap.values
    rw [h.directives, List.map_map]
    exact List.forall_mem_map.2 fun w _ => DirectiveDef.keyedBy_parameters_written w.1 w.2

/-- A schema holds what it is made of under its names. -/
theorem Schema.MadeOf.keyedByNames {s : Schema} (h : s.MadeOf ds) :
    KeyedByNames s.types s.directives where
  typeNames := h.types.keyedBy_name
  typeMembers := h.types.keyedByNames
  directiveNames e he := by
    rcases h.directive_cases (OrderedMap.get?_eq_some_iff.2 he) with ⟨w, -, hname, hd⟩ | ⟨-, hname⟩
    · rw [hd]
      exact hname
    · exact hname
  directiveParameters d hd := by
    obtain ⟨e, he, rfl⟩ := List.mem_map.1 hd
    rcases h.directive_cases (OrderedMap.get?_eq_some_iff.2 he) with ⟨w, -, -, hd⟩ | ⟨hd, -⟩
    · rw [hd]
      exact DirectiveDef.keyedBy_parameters_written w.1 w.2
    · exact DirectiveDef.keyedBy_parameters_builtIns e.2 hd

/-- In every builder to which loads lead, and in every schema that is built then, types, directives,
members and parameters are held under their names, and no type implements an interface twice. -/
theorem keyedByNames_of_reachable {b : Builder} (h : b.Reachable) :
    KeyedByNames b.types b.directives ∧
      ∀ s, b.build = .ok s → KeyedByNames s.types s.directives := by
  obtain ⟨ds, hb⟩ := h.exists_loaded
  exact ⟨hb.keyedByNames, fun s hbuild => (Schema.MadeOf.of_build hb hbuild).keyedByNames⟩

namespace AllKinds

/-- The path of the source below. -/
def path : Path := ⟨"kinds.graphql"⟩

/-- A source with types of all kinds, one of them extended before it is defined, and a directive. -/
def source : String :=
  "extend type Query \x7b f(x: R): U \x7d interface N \x7b s: S \x7d scalar S union U = Query
type Query implements N \x7b s: S \x7d enum E \x7b V \x7d input R \x7b e: E \x7d
directive @d(x: R) on FIELD"

end AllKinds

open AllKinds in
/-- A builder into which that source is loaded builds a schema, and both hold everything under its
name. -/
theorem keyedByNames_of_reachable_allKinds :
    ∃ b s, Builder.empty.load (some path) source = .ok b ∧ b.Reachable ∧ b.build = .ok s ∧
      KeyedByNames b.types b.directives ∧ KeyedByNames s.types s.directives := by
  have hpath : path.same Introspection.path = false := by decide +kernel
  have hsource : makesUpSchema path source = true := by decide +kernel
  obtain ⟨s, hok⟩ := exists_build_of_source hpath hsource
  obtain ⟨b, hload, hbuild⟩ := bind_eq_ok.1 hok
  have hfirst : Builder.empty.load (some path) source = .ok b := by
    rw [List.foldlM_cons] at hload
    obtain ⟨b', hfirst, hrest⟩ := bind_eq_ok.1 hload
    obtain rfl := pure_eq_ok.1 hrest
    exact hfirst
  have hreachable : b.Reachable := .load .empty hfirst
  obtain ⟨hb, hs⟩ := keyedByNames_of_reachable hreachable
  exact ⟨b, s, hfirst, hreachable, hbuild, hb, hs s hbuild⟩

end GraphQLCheck
