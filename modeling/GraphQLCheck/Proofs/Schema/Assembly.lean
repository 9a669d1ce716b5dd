import GraphQLCheck.Proofs.Schema.Appending
import Mathlib.Data.List.Flatten
import Mathlib.Tactic.MkIffOfInductiveProp

/-!
# How a type is assembled from its parts

A type is written in parts: its definition and its extensions. `Part.entries` and `Part.interfaces`
are what a part contributes, `Merges` says when parts go together, in whatever order, and
`Assembled` that a type is what its parts, in a given order, make it.

Main statements: defining a type and extending it succeed exactly if the parts go together, and then
the type is assembled from them (`Assembled.of_ofDefinition`, `Assembled.exists_ofDefinition`,
`Assembled.extend`, `Assembled.exists_extend`).
-/

namespace GraphQLCheck

namespace TypeSystem.Body

/-- The names of the fields, input fields, enum values or union members that a body writes. -/
def memberNames : Body → List String
  | scalar => []
  | object _ fields | interface _ fields => fields.map Field.name
  | union members => members
  | enum values => values.map EnumValue.name
  | inputObject fields => fields.map InputValue.name

/-- The names of the interfaces that a body lists. -/
def interfaceNames : Body → List String
  | object interfaces _ | interface interfaces _ => interfaces
  | _ => []

/-- The names that a body gives to fields, to their parameters and to input fields. -/
def givenNames : Body → List String
  | object _ fields | interface _ fields =>
    fields.flatMap fun f => f.name :: f.arguments.map InputValue.name
  | inputObject fields => fields.map InputValue.name
  | _ => []

end TypeSystem.Body

/-- The definition of a member of a type, whatever kind of type it is. -/
inductive MemberDef where
  | field (f : FieldDef)
  | inputField (f : InputDef)
  | value (v : EnumValueDef)
  | member (r : TypeReference)

/-- Whether a member has a name, and its parameters have those under which it holds them. -/
def MemberDef.NamedBy (name : String) : MemberDef → Prop
  | .field f => f.name = name ∧ f.parameters.KeyedBy InputDef.name
  | .inputField f => f.name = name
  | .value v => v.name = name
  | .member r => r.name = name

/-- What a definition or an extension writes after the name of a type, and where it is. -/
structure Part where
  path : Path
  position : Position
  body : TypeSystem.Body

namespace Part

/-- The part that a definition is. -/
def ofDefinition (path : Path) (d : TypeSystem.TypeDefinition) : Part := ⟨path, d.position, d.body⟩

/-- The part that an extension is. -/
def ofExtension (path : Path) (e : TypeSystem.TypeExtension) : Part := ⟨path, e.position, e.body⟩

/-- The members that a part contributes, in written order. -/
def entries (part : Part) : List (String × MemberDef) :=
  match part.body with
  | .scalar => []
  | .object _ fields | .interface _ fields =>
    fields.map fun f => (f.name, .field (.written part.path f))
  | .union members =>
    members.map fun name => (name, .member ⟨name, .written part.path part.position⟩)
  | .enum values =>
    values.map fun v => (v.name, .value ⟨v.name, .written part.path v.position, v.description⟩)
  | .inputObject fields => fields.map fun v => (v.name, .inputField (.ofWritten part.path v))

/-- The interfaces that a part contributes, in written order. -/
def interfaces (part : Part) : List TypeReference :=
  part.body.interfaceNames.map fun name => ⟨name, .written part.path part.position⟩

/-- The names of the members that a part contributes. -/
theorem map_fst_entries (part : Part) : part.entries.map Prod.fst = part.body.memberNames := by
  obtain ⟨path, position, body⟩ := part
  cases body <;> simp [entries, TypeSystem.Body.memberNames, Function.comp_def]

/-- A part contributes its members under their names. -/
theorem namedBy_of_mem_entries {part : Part} {e : String × MemberDef} (he : e ∈ part.entries) :
    e.2.NamedBy e.1 := by
  obtain ⟨path, position, body⟩ := part
  cases body with
  | scalar => exact nomatch he
  | object _ fields | interface _ fields =>
    obtain ⟨f, -, rfl⟩ := List.mem_map.1 he
    refine ⟨rfl, OrderedMap.keyedBy_ofList fun p hp => ?_⟩
    obtain ⟨v, -, rfl⟩ := List.mem_map.1 hp
    rfl
  | union _ | enum _ | inputObject _ =>
    obtain ⟨_, -, rfl⟩ := List.mem_map.1 he
    rfl

/-- The names of the interfaces that a part contributes. -/
theorem map_name_interfaces (part : Part) :
    part.interfaces.map TypeReference.name = part.body.interfaceNames := by
  rw [interfaces, List.map_map]
  exact List.map_id _

end Part

namespace NamedType

/-- The members of a type, oldest first. -/
def entries : NamedType → List (String × MemberDef)
  | builtIn _ | scalar _ => []
  | object t | interface t => t.fields.entries.map fun e => (e.1, .field e.2)
  | union t => t.members.entries.map fun e => (e.1, .member e.2)
  | enum t => t.values.entries.map fun e => (e.1, .value e.2)
  | inputObject t => t.fields.entries.map fun e => (e.1, .inputField e.2)

/-- The interfaces that a type implements, oldest first. -/
def interfaces : NamedType → List TypeReference
  | object t | interface t => t.interfaces
  | _ => []

/-- The fields of a type are its members that are fields. -/
theorem mem_entries_field_iff {t : NamedType} {name : String} {f : FieldDef} :
    (name, .field f) ∈ t.entries ↔
      ∃ fields, t.fields? = some fields ∧ fields.get? name = some f := by
  -- entries that come from anything else than a field are no fields
  cases t with
  | builtIn _ | scalar _ => exact ⟨fun h => (nomatch h), fun ⟨_, h, _⟩ => nomatch h⟩
  | object t | interface t =>
    have hentries : (name, MemberDef.field f) ∈ t.fields.entries.map (fun e => (e.1, .field e.2)) ↔
        (name, f) ∈ t.fields.entries := by
      rw [List.mem_map]
      constructor
      · rintro ⟨⟨name, f⟩, hmem, heq⟩
        obtain ⟨rfl, hfield⟩ := Prod.mk.inj heq
        rw [← MemberDef.field.inj hfield]
        exact hmem
      · exact fun hmem => ⟨_, hmem, rfl⟩
    refine hentries.trans ⟨fun hmem => ⟨_, rfl, OrderedMap.get?_eq_some_iff.2 hmem⟩, ?_⟩
    rintro ⟨fields, hfields, hget⟩
    obtain rfl := Option.some.inj hfields
    exact OrderedMap.get?_eq_some_iff.1 hget
  | union t | enum t | inputObject t =>
    refine ⟨fun h => ?_, fun ⟨_, h, _⟩ => nomatch h⟩
    obtain ⟨_, -, heq⟩ := List.mem_map.1 h
    exact nomatch (Prod.mk.inj heq).2

/-- No type has two members of one name. -/
theorem nodup_entries (t : NamedType) : (t.entries.map Prod.fst).Nodup := by
  cases t with
  | builtIn _ | scalar _ => exact List.nodup_nil
  | object t | interface t =>
    rw [entries, List.map_map]
    exact t.fields.nodup_keys
  | union t =>
    rw [entries, List.map_map]
    exact t.members.nodup_keys
  | enum t =>
    rw [entries, List.map_map]
    exact t.values.nodup_keys
  | inputObject t =>
    rw [entries, List.map_map]
    exact t.fields.nodup_keys

end NamedType

/-- Whether bodies go together as the parts of a type with some name and kind: they are of that
kind, no member and no interface comes twice, the type does not implement itself, and no name that
is given is reserved. -/
@[mk_iff]
structure Merges (name : String) (kind : TypeKind) (bodies : List TypeSystem.Body) : Prop where
  kinds : ∀ body ∈ bodies, body.kind = kind
  members : (bodies.flatMap TypeSystem.Body.memberNames).Nodup
  interfaces : (bodies.flatMap TypeSystem.Body.interfaceNames).Nodup
  notSelf : name ∉ bodies.flatMap TypeSystem.Body.interfaceNames
  unreserved : ∀ x ∈ bodies.flatMap TypeSystem.Body.givenNames, isReservedName x = false

namespace Merges

variable {name : String} {kind : TypeKind} {bodies bodies' : List TypeSystem.Body}

/-- Whether parts go together is decidable. -/
instance : Decidable (Merges name kind bodies) :=
  decidable_of_iff _ (merges_iff name kind bodies).symm

/-- The order of the parts does not matter. -/
theorem perm (h : Merges name kind bodies) (hperm : bodies.Perm bodies') :
    Merges name kind bodies' where
  kinds body hbody := h.kinds body (hperm.mem_iff.2 hbody)
  members := (hperm.flatMap_right _).nodup_iff.1 h.members
  interfaces := (hperm.flatMap_right _).nodup_iff.1 h.interfaces
  notSelf hself := h.notSelf ((hperm.flatMap_right _).mem_iff.2 hself)
  unreserved x hx := h.unreserved x ((hperm.flatMap_right _).mem_iff.2 hx)

/-- Some of the parts go together if all of them do. -/
theorem sublist (h : Merges name kind bodies) (hsub : bodies'.Sublist bodies) :
    Merges name kind bodies' where
  kinds body hbody := h.kinds body (hsub.mem hbody)
  members := h.members.sublist (hsub.flatMap _)
  interfaces := h.interfaces.sublist (hsub.flatMap _)
  notSelf hself := h.notSelf ((hsub.flatMap _).mem hself)
  unreserved x hx := h.unreserved x ((hsub.flatMap _).mem hx)

end Merges

namespace NamedType

open Members

/-- What adding a part to a type called `type` does, if it succeeds. -/
structure Adds (type : String) (part : Part) (t t' : NamedType) : Prop where
  kind : t'.kind = t.kind
  name : t'.name = t.name
  location : t'.location = t.location
  description : t'.description = t.description
  entries : t'.entries = t.entries ++ part.entries
  interfaces : t'.interfaces = t.interfaces ++ part.interfaces
  nodup : (t.interfaces.map TypeReference.name).Nodup → (t'.interfaces.map TypeReference.name).Nodup
  notSelf : type ∉ part.body.interfaceNames
  unreserved : ∀ x ∈ part.body.givenNames, isReservedName x = false

/-- When a part can be added to a type called `type`. -/
structure Admits (type : String) (part : Part) (t : NamedType) : Prop where
  kind : part.body.kind = t.kind
  members : (t.entries.map Prod.fst ++ part.body.memberNames).Nodup
  interfaces : (t.interfaces.map TypeReference.name ++ part.body.interfaceNames).Nodup
  notSelf : type ∉ part.body.interfaceNames
  unreserved : ∀ x ∈ part.body.givenNames, isReservedName x = false

section Kinds

variable {path : Path} {position : Position} {type : String}

/-- Fields give no reserved name if neither they nor their parameters have one. -/
private theorem unreserved_fields {fields : List TypeSystem.Field} :
    (∀ x ∈ fields.flatMap fun f => f.name :: f.arguments.map TypeSystem.InputValue.name,
      isReservedName x = false) ↔
    ∀ f ∈ fields, isReservedName f.name = false ∧
      ∀ v ∈ f.arguments, isReservedName v.name = false := by
  simp only [List.mem_flatMap, List.mem_cons, List.mem_map]
  constructor
  · intro h f hf
    exact ⟨h f.name ⟨f, hf, .inl rfl⟩, fun v hv => h v.name ⟨f, hf, .inr ⟨v, hv, rfl⟩⟩⟩
  · rintro h x ⟨f, hf, rfl | ⟨v, hv, rfl⟩⟩
    · exact (h f hf).1
    · exact (h f hf).2 v hv

/-- Interfaces and fields are added to an object or an interface. -/
private theorem adds_fielded {t : FieldedType} {interfaces : List String}
    {fields : List TypeSystem.Field} {interfaces' : List TypeReference}
    {fields' : OrderedMap FieldDef}
    (hinterfaces : addInterfaces (.written path position) type t.interfaces interfaces =
      .ok interfaces')
    (hfields : addFields path type t.fields fields = .ok fields') :
    let t' := { t with interfaces := interfaces', fields := fields' }
    Adds type ⟨path, position, .object interfaces fields⟩ (.object t) (.object t') ∧
      Adds type ⟨path, position, .interface interfaces fields⟩ (.interface t) (.interface t') := by
  intro t'
  obtain ⟨hself, hcontents, hnodup⟩ := (appends_addInterface _ type).foldlM_of_ok hinterfaces
  obtain ⟨hfits, hentries, -⟩ := (appends_addField path type).foldlM_of_ok hfields
  have hmembers : fields'.entries.map (fun e => (e.1, MemberDef.field e.2)) =
      t.fields.entries.map (fun e => (e.1, MemberDef.field e.2)) ++
        fields.map fun f => (f.name, .field (.written path f)) := by
    rw [hentries, List.map_append, List.map_map]
    rfl
  have hunreserved := unreserved_fields.2 hfits
  have hnotSelf : type ∉ interfaces := fun hmem => hself type hmem rfl
  exact ⟨⟨rfl, rfl, rfl, rfl, hmembers, hcontents, hnodup, hnotSelf, hunreserved⟩,
    ⟨rfl, rfl, rfl, rfl, hmembers, hcontents, hnodup, hnotSelf, hunreserved⟩⟩

/-- A definition adds its interfaces and fields to a blank object or interface. -/
private theorem adds_of_fieldedOfDefinition {d : TypeSystem.TypeDefinition}
    {interfaces : List String} {fields : List TypeSystem.Field} {t' : FieldedType}
    (h : fieldedOfDefinition path d interfaces fields = .ok t') :
    let t : FieldedType := ⟨d.name, .written path d.position, d.description, [], .empty⟩
    Adds d.name ⟨path, d.position, .object interfaces fields⟩ (.object t) (.object t') ∧
      Adds d.name ⟨path, d.position, .interface interfaces fields⟩ (.interface t)
        (.interface t') := by
  intro t
  obtain ⟨fields', hfields, h⟩ := bind_eq_ok.1 h
  obtain ⟨interfaces', hinterfaces, h⟩ := bind_eq_ok.1 h
  obtain rfl := pure_eq_ok.1 h
  exact @adds_fielded path d.position d.name t _ _ _ _ hinterfaces hfields

/-- An extension adds its interfaces and fields to an object or an interface. -/
private theorem adds_of_extendFielded {e : TypeSystem.TypeExtension} {interfaces : List String}
    {fields : List TypeSystem.Field} {t t' : FieldedType}
    (h : extendFielded path e interfaces fields t = .ok t') :
    Adds e.name ⟨path, e.position, .object interfaces fields⟩ (.object t) (.object t') ∧
      Adds e.name ⟨path, e.position, .interface interfaces fields⟩ (.interface t)
        (.interface t') := by
  obtain ⟨interfaces', hinterfaces, h⟩ := bind_eq_ok.1 h
  obtain ⟨fields', hfields, h⟩ := bind_eq_ok.1 h
  obtain rfl := pure_eq_ok.1 h
  exact adds_fielded hinterfaces hfields

/-- Members are added to a union. -/
private theorem adds_union {t : UnionType} {members : List String}
    {members' : OrderedMap TypeReference}
    (hmembers : addMembers (.written path position) type t.members members = .ok members') :
    Adds type ⟨path, position, .union members⟩ (.union t)
      (.union { t with members := members' }) := by
  obtain ⟨-, hentries, -⟩ := (appends_addMember _ type).foldlM_of_ok hmembers
  refine ⟨rfl, rfl, rfl, rfl, ?_, rfl, id, List.not_mem_nil, fun x hx => nomatch hx⟩
  show members'.entries.map _ = t.members.entries.map _ ++ members.map _
  rw [hentries, List.map_append, List.map_map]
  rfl

/-- Values are added to an enum. -/
private theorem adds_enum {t : EnumType} {values : List TypeSystem.EnumValue}
    {values' : OrderedMap EnumValueDef}
    (hvalues : addValues path type t.values values = .ok values') :
    Adds type ⟨path, position, .enum values⟩ (.enum t) (.enum { t with values := values' }) := by
  obtain ⟨-, hentries, -⟩ := (appends_addValue path type).foldlM_of_ok hvalues
  refine ⟨rfl, rfl, rfl, rfl, ?_, rfl, id, List.not_mem_nil, fun x hx => nomatch hx⟩
  show values'.entries.map _ = t.values.entries.map _ ++ values.map _
  rw [hentries, List.map_append, List.map_map]
  rfl

/-- Fields are added to an input object. -/
private theorem adds_inputObject {t : InputObjectType} {fields : List TypeSystem.InputValue}
    {fields' : OrderedMap InputDef}
    (hfields : addInputFields path type t.fields fields = .ok fields') :
    Adds type ⟨path, position, .inputObject fields⟩ (.inputObject t)
      (.inputObject { t with fields := fields' }) := by
  obtain ⟨hfits, hentries, -⟩ := (appends_addInputField path type).foldlM_of_ok hfields
  refine ⟨rfl, rfl, rfl, rfl, ?_, rfl, id, List.not_mem_nil, fun x hx => ?_⟩
  · show fields'.entries.map _ = t.fields.entries.map _ ++ fields.map _
    rw [hentries, List.map_append, List.map_map]
    rfl
  · obtain ⟨v, hv, rfl⟩ := List.mem_map.1 hx
    exact hfits v hv

/-- Interfaces and fields that an object or an interface admits can be added to it. -/
private theorem exists_fielded (path : Path) (location : SourceLocation)
    {fields : OrderedMap FieldDef} {interfaces : List TypeReference}
    {newFields : List TypeSystem.Field} {newInterfaces : List String}
    (hmembers : (fields.entries.map Prod.fst ++ newFields.map TypeSystem.Field.name).Nodup)
    (hinterfaces : (interfaces.map TypeReference.name ++ newInterfaces).Nodup)
    (hself : type ∉ newInterfaces)
    (hunreserved : ∀ x ∈ newFields.flatMap fun f =>
      f.name :: f.arguments.map TypeSystem.InputValue.name, isReservedName x = false) :
    (∃ fields', addFields path type fields newFields = .ok fields') ∧
      ∃ interfaces', addInterfaces location type interfaces newInterfaces = .ok interfaces' := by
  refine ⟨(appends_addField path type).exists_foldlM (unreserved_fields.1 hunreserved) hmembers,
    (appends_addInterface location type).exists_foldlM (fun name hname hsame => ?_) ?_⟩
  · exact hself (hsame ▸ hname)
  · rw [List.map_id']
    exact hinterfaces

/-- An object or an interface can be defined with interfaces and fields that go together. -/
private theorem exists_fieldedOfDefinition (path : Path) (d : TypeSystem.TypeDefinition)
    {fields : List TypeSystem.Field} {interfaces : List String}
    (hmembers : (fields.map TypeSystem.Field.name).Nodup) (hinterfaces : interfaces.Nodup)
    (hself : d.name ∉ interfaces)
    (hunreserved : ∀ x ∈ fields.flatMap fun f =>
      f.name :: f.arguments.map TypeSystem.InputValue.name, isReservedName x = false) :
    ∃ t, fieldedOfDefinition path d interfaces fields = .ok t := by
  obtain ⟨⟨fields', hfields⟩, interfaces', hinterfaces'⟩ :=
    @exists_fielded d.name path (.written path d.position) .empty [] fields interfaces hmembers
      hinterfaces hself hunreserved
  exact ⟨_, bind_eq_ok.2 ⟨fields', hfields, bind_eq_ok.2 ⟨interfaces', hinterfaces', rfl⟩⟩⟩

/-- An object or an interface can be extended by the interfaces and fields that it admits. -/
private theorem exists_extendFielded {e : TypeSystem.TypeExtension} {t : FieldedType}
    {newFields : List TypeSystem.Field} {newInterfaces : List String}
    (hmembers : (t.fields.entries.map Prod.fst ++ newFields.map TypeSystem.Field.name).Nodup)
    (hinterfaces : (t.interfaces.map TypeReference.name ++ newInterfaces).Nodup)
    (hself : e.name ∉ newInterfaces)
    (hunreserved : ∀ x ∈ newFields.flatMap fun f =>
      f.name :: f.arguments.map TypeSystem.InputValue.name, isReservedName x = false) :
    ∃ t', extendFielded path e newInterfaces newFields t = .ok t' := by
  obtain ⟨⟨fields', hfields⟩, interfaces', hinterfaces'⟩ :=
    exists_fielded path (.written path e.position) hmembers hinterfaces hself hunreserved
  exact ⟨_, bind_eq_ok.2 ⟨interfaces', hinterfaces', bind_eq_ok.2 ⟨fields', hfields, rfl⟩⟩⟩

/-- Members that a union admits can be added to it. -/
private theorem exists_union (location : SourceLocation) {members : OrderedMap TypeReference}
    {names : List String} (h : (members.entries.map Prod.fst ++ names).Nodup) :
    ∃ members', addMembers location type members names = .ok members' := by
  refine (appends_addMember location type).exists_foldlM (fun _ _ => trivial) ?_
  rw [List.map_id']
  exact h

/-- Values that an enum admits can be added to it. -/
private theorem exists_enum {values : OrderedMap EnumValueDef}
    {newValues : List TypeSystem.EnumValue}
    (h : (values.entries.map Prod.fst ++ newValues.map TypeSystem.EnumValue.name).Nodup) :
    ∃ values', addValues path type values newValues = .ok values' :=
  (appends_addValue path type).exists_foldlM (fun _ _ => trivial) h

/-- Fields that an input object admits can be added to it. -/
private theorem exists_inputObject {fields : OrderedMap InputDef}
    {newFields : List TypeSystem.InputValue}
    (h : (fields.entries.map Prod.fst ++ newFields.map TypeSystem.InputValue.name).Nodup)
    (hunreserved : ∀ x ∈ newFields.map TypeSystem.InputValue.name, isReservedName x = false) :
    ∃ fields', addInputFields path type fields newFields = .ok fields' :=
  (appends_addInputField path type).exists_foldlM
    (fun v hv => hunreserved v.name (List.mem_map_of_mem hv)) h

end Kinds

/-- Keys are kept when entries are wrapped. -/
private theorem map_fst_wrap {α β : Type} (wrap : α → β) (entries : List (String × α)) :
    (entries.map fun e => (e.1, wrap e.2)).map Prod.fst = entries.map Prod.fst :=
  List.map_map

/-- The type that a definition begins with, before any member has been added. -/
def blank (path : Path) (d : TypeSystem.TypeDefinition) : NamedType :=
  let location := .written path d.position
  match d.body with
  | .scalar => scalar ⟨d.name, location, d.description⟩
  | .object .. => object ⟨d.name, location, d.description, [], .empty⟩
  | .interface .. => interface ⟨d.name, location, d.description, [], .empty⟩
  | .union _ => union ⟨d.name, location, d.description, .empty⟩
  | .enum _ => enum ⟨d.name, location, d.description, .empty⟩
  | .inputObject _ => inputObject ⟨d.name, location, d.description, .empty⟩

/-- A definition adds its own part to the blank type. -/
theorem adds_of_ofDefinition {path : Path} {d : TypeSystem.TypeDefinition} {t : NamedType}
    (h : ofDefinition path d = .ok t) :
    (isReservedName d.name && !path.same Introspection.path) = false ∧
      Adds d.name (.ofDefinition path d) (blank path d) t := by
  rw [ofDefinition] at h
  cases hguard : isReservedName d.name && !path.same Introspection.path with
  | true => rw [hguard] at h; exact nomatch h
  | false =>
    rw [hguard] at h
    refine ⟨rfl, ?_⟩
    obtain ⟨position, description, name, body⟩ := d
    -- each kind of body is added by the functions for its kind
    cases body with
    | scalar =>
      obtain rfl := pure_eq_ok.1 h
      exact ⟨rfl, rfl, rfl, rfl, rfl, rfl, id, List.not_mem_nil, fun x hx => nomatch hx⟩
    | object interfaces fields =>
      obtain ⟨t', hfielded, h⟩ := bind_eq_ok.1 h
      obtain rfl := pure_eq_ok.1 h
      exact (adds_of_fieldedOfDefinition hfielded).1
    | interface interfaces fields =>
      obtain ⟨t', hfielded, h⟩ := bind_eq_ok.1 h
      obtain rfl := pure_eq_ok.1 h
      exact (adds_of_fieldedOfDefinition hfielded).2
    | union members =>
      obtain ⟨members', hmembers, h⟩ := bind_eq_ok.1 h
      obtain rfl := pure_eq_ok.1 h
      exact adds_union (t := ⟨_, _, _, _⟩) hmembers
    | enum values =>
      obtain ⟨values', hvalues, h⟩ := bind_eq_ok.1 h
      obtain rfl := pure_eq_ok.1 h
      exact adds_enum (t := ⟨_, _, _, _⟩) hvalues
    | inputObject fields =>
      obtain ⟨fields', hfields, h⟩ := bind_eq_ok.1 h
      obtain rfl := pure_eq_ok.1 h
      exact adds_inputObject (t := ⟨_, _, _, _⟩) hfields

/-- A definition that the blank type admits defines a type. -/
theorem exists_ofDefinition {path : Path} {d : TypeSystem.TypeDefinition}
    (hguard : (isReservedName d.name && !path.same Introspection.path) = false)
    (h : Admits d.name (.ofDefinition path d) (blank path d)) :
    ∃ t, ofDefinition path d = .ok t := by
  obtain ⟨position, description, name, body⟩ := d
  rw [ofDefinition, hguard]
  obtain ⟨-, hmembers, hinterfaces, hself, hunreserved⟩ := h
  cases body with
  | scalar => exact ⟨_, rfl⟩
  | object interfaces fields | interface interfaces fields =>
    obtain ⟨t, hfielded⟩ := exists_fieldedOfDefinition path ⟨position, description, name, _⟩
      hmembers hinterfaces hself hunreserved
    exact ⟨_, bind_eq_ok.2 ⟨t, hfielded, rfl⟩⟩
  | union members =>
    obtain ⟨members', hmembers'⟩ :=
      @exists_union name (.written path position) .empty members hmembers
    exact ⟨_, bind_eq_ok.2 ⟨members', hmembers', rfl⟩⟩
  | enum values =>
    obtain ⟨values', hvalues'⟩ := @exists_enum path name .empty values hmembers
    exact ⟨_, bind_eq_ok.2 ⟨values', hvalues', rfl⟩⟩
  | inputObject fields =>
    obtain ⟨fields', hfields'⟩ :=
      @exists_inputObject path name .empty fields hmembers hunreserved
    exact ⟨_, bind_eq_ok.2 ⟨fields', hfields', rfl⟩⟩

/-- An extension adds its part to a type of its kind, which is not built in. -/
theorem adds_of_extend {path : Path} {e : TypeSystem.TypeExtension} {t t' : NamedType}
    (h : t.extend path e = .ok t') :
    e.body.kind = t.kind ∧ (∀ s, t ≠ .builtIn s) ∧
      Adds e.name (.ofExtension path e) t t' := by
  obtain ⟨position, name, body⟩ := e
  -- a type can only be extended by a body of its own kind
  cases t with
  | builtIn s => cases body <;> exact nomatch h
  | scalar t =>
    cases body with
    | scalar =>
      obtain rfl := pure_eq_ok.1 h
      refine ⟨rfl, fun s hs => (nomatch hs), rfl, rfl, rfl, rfl, rfl, rfl, id, List.not_mem_nil, ?_⟩
      exact fun x hx => nomatch hx
    | _ => exact nomatch h
  | object t =>
    cases body with
    | object interfaces fields =>
      obtain ⟨t'', hfielded, h⟩ := bind_eq_ok.1 h
      obtain rfl := pure_eq_ok.1 h
      exact ⟨rfl, fun s hs => (nomatch hs), (adds_of_extendFielded hfielded).1⟩
    | _ => exact nomatch h
  | interface t =>
    cases body with
    | interface interfaces fields =>
      obtain ⟨t'', hfielded, h⟩ := bind_eq_ok.1 h
      obtain rfl := pure_eq_ok.1 h
      exact ⟨rfl, fun s hs => (nomatch hs), (adds_of_extendFielded hfielded).2⟩
    | _ => exact nomatch h
  | union t =>
    cases body with
    | union members =>
      obtain ⟨members', hmembers, h⟩ := bind_eq_ok.1 h
      obtain rfl := pure_eq_ok.1 h
      exact ⟨rfl, fun s hs => (nomatch hs), adds_union hmembers⟩
    | _ => exact nomatch h
  | enum t =>
    cases body with
    | enum values =>
      obtain ⟨values', hvalues, h⟩ := bind_eq_ok.1 h
      obtain rfl := pure_eq_ok.1 h
      exact ⟨rfl, fun s hs => (nomatch hs), adds_enum hvalues⟩
    | _ => exact nomatch h
  | inputObject t =>
    cases body with
    | inputObject fields =>
      obtain ⟨fields', hfields, h⟩ := bind_eq_ok.1 h
      obtain rfl := pure_eq_ok.1 h
      exact ⟨rfl, fun s hs => (nomatch hs), adds_inputObject hfields⟩
    | _ => exact nomatch h

/-- A type that is not built in can be extended by what it admits. -/
theorem exists_extend {path : Path} {e : TypeSystem.TypeExtension} {t : NamedType}
    (hcustom : ∀ s, t ≠ .builtIn s) (h : Admits e.name (.ofExtension path e) t) :
    ∃ t', t.extend path e = .ok t' := by
  obtain ⟨position, name, body⟩ := e
  obtain ⟨hkind, hmembers, hinterfaces, hself, hunreserved⟩ := h
  -- only a body of the same kind is admitted
  cases t with
  | builtIn s => exact absurd rfl (hcustom s)
  | scalar t =>
    cases body with
    | scalar => exact ⟨_, rfl⟩
    | _ => exact nomatch hkind
  | object t =>
    cases body with
    | object interfaces fields =>
      rw [entries, map_fst_wrap] at hmembers
      obtain ⟨t', hfielded⟩ := exists_extendFielded hmembers hinterfaces hself hunreserved
      exact ⟨_, bind_eq_ok.2 ⟨t', hfielded, rfl⟩⟩
    | _ => exact nomatch hkind
  | interface t =>
    cases body with
    | interface interfaces fields =>
      rw [entries, map_fst_wrap] at hmembers
      obtain ⟨t', hfielded⟩ := exists_extendFielded hmembers hinterfaces hself hunreserved
      exact ⟨_, bind_eq_ok.2 ⟨t', hfielded, rfl⟩⟩
    | _ => exact nomatch hkind
  | union t =>
    cases body with
    | union members =>
      rw [entries, map_fst_wrap] at hmembers
      obtain ⟨members', hmembers'⟩ := exists_union (.written path position) hmembers
      exact ⟨_, bind_eq_ok.2 ⟨members', hmembers', rfl⟩⟩
    | _ => exact nomatch hkind
  | enum t =>
    cases body with
    | enum values =>
      rw [entries, map_fst_wrap] at hmembers
      obtain ⟨values', hvalues'⟩ := exists_enum hmembers
      exact ⟨_, bind_eq_ok.2 ⟨values', hvalues', rfl⟩⟩
    | _ => exact nomatch hkind
  | inputObject t =>
    cases body with
    | inputObject fields =>
      rw [entries, map_fst_wrap] at hmembers
      obtain ⟨fields', hfields'⟩ := exists_inputObject hmembers hunreserved
      exact ⟨_, bind_eq_ok.2 ⟨fields', hfields', rfl⟩⟩
    | _ => exact nomatch hkind

end NamedType

/-- Whether a type is the one that the definition `d` in the source at `path` defines, with the
members of some parts, in that order. -/
structure Assembled (path : Path) (d : TypeSystem.TypeDefinition) (parts : List Part)
    (t : NamedType) : Prop where
  kind : t.kind = d.body.kind
  name : t.name = d.name
  location : t.location = .written path d.position
  description : t.description = d.description
  entries : t.entries = parts.flatMap Part.entries
  interfaces : t.interfaces = parts.flatMap Part.interfaces
  merges : Merges d.name d.body.kind (parts.map Part.body)

namespace Assembled

variable {path : Path} {d : TypeSystem.TypeDefinition} {parts : List Part} {part : Part}
  {t t' : NamedType}

/-- The names of the members of the parts. -/
theorem flatMap_memberNames (parts : List Part) :
    (parts.map Part.body).flatMap TypeSystem.Body.memberNames =
      (parts.flatMap Part.entries).map Prod.fst := by
  simp only [List.flatMap_map, List.map_flatMap, Part.map_fst_entries]

/-- The names of the interfaces of the parts. -/
theorem flatMap_interfaceNames (parts : List Part) :
    (parts.map Part.body).flatMap TypeSystem.Body.interfaceNames =
      (parts.flatMap Part.interfaces).map TypeReference.name := by
  simp only [List.flatMap_map, List.map_flatMap, Part.map_name_interfaces]

/-- The blank type is assembled from no parts. -/
theorem blank (path : Path) (d : TypeSystem.TypeDefinition) :
    Assembled path d [] (NamedType.blank path d) := by
  have hmerges : Merges d.name d.body.kind ([].map Part.body) :=
    ⟨fun _ h => (nomatch h), List.nodup_nil, List.nodup_nil, List.not_mem_nil,
      fun _ h => nomatch h⟩
  obtain ⟨position, description, name, body⟩ := d
  cases body <;> exact ⟨rfl, rfl, rfl, rfl, rfl, rfl, hmerges⟩

/-- A type with a written location is not built in. -/
theorem ne_builtIn (h : Assembled path d parts t) (s : BuiltInScalar) : t ≠ .builtIn s := by
  rintro rfl
  exact nomatch h.location

/-- Adding a part assembles the type from one part more. -/
theorem adds (h : Assembled path d parts t) (hadds : NamedType.Adds d.name part t t')
    (hkind : part.body.kind = t.kind) : Assembled path d (parts ++ [part]) t' := by
  have hentries : t'.entries = (parts ++ [part]).flatMap Part.entries := by
    rw [hadds.entries, h.entries, List.flatMap_append, List.flatMap_singleton]
  have hinterfaces : t'.interfaces = (parts ++ [part]).flatMap Part.interfaces := by
    rw [hadds.interfaces, h.interfaces, List.flatMap_append, List.flatMap_singleton]
  refine ⟨hadds.kind.trans h.kind, hadds.name.trans h.name, hadds.location.trans h.location,
    hadds.description.trans h.description, hentries, hinterfaces, ?_, ?_, ?_, ?_, ?_⟩
  · rw [List.map_append]
    refine List.forall_mem_append.2 ⟨h.merges.kinds, List.forall_mem_singleton.2 ?_⟩
    exact hkind.trans h.kind
  · -- the names of the members differ, since they are the keys of a map
    rw [flatMap_memberNames, ← hentries]
    exact t'.nodup_entries
  · -- interfaces are kept in a list, so that they differ has to be carried along
    rw [flatMap_interfaceNames, ← hinterfaces]
    refine hadds.nodup ?_
    rw [h.interfaces, ← flatMap_interfaceNames]
    exact h.merges.interfaces
  · rw [List.map_append, List.flatMap_append, List.mem_append, not_or]
    refine ⟨h.merges.notSelf, ?_⟩
    rw [List.map_singleton, List.flatMap_singleton]
    exact hadds.notSelf
  · rw [List.map_append, List.flatMap_append]
    refine List.forall_mem_append.2 ⟨h.merges.unreserved, ?_⟩
    rw [List.map_singleton, List.flatMap_singleton]
    exact hadds.unreserved

/-- A part that goes together with the parts of a type is admitted by it. -/
theorem admits (h : Assembled path d parts t)
    (hmerges : Merges d.name d.body.kind ((parts ++ [part]).map Part.body)) :
    NamedType.Admits d.name part t := by
  rw [List.map_append, List.map_singleton] at hmerges
  obtain ⟨hkinds, hmembers, hinterfaces, hself, hunreserved⟩ := hmerges
  rw [List.flatMap_append, List.flatMap_singleton] at hmembers hinterfaces hself hunreserved
  refine ⟨?_, ?_, ?_, ?_, ?_⟩
  · rw [h.kind]
    exact hkinds part.body (List.mem_append_right _ (List.mem_singleton.2 rfl))
  · rw [h.entries, ← flatMap_memberNames]
    exact hmembers
  · rw [h.interfaces, ← flatMap_interfaceNames]
    exact hinterfaces
  · exact fun hmem => hself (List.mem_append_right _ hmem)
  · exact fun x hx => hunreserved x (List.mem_append_right _ hx)

/-- What a definition defines is assembled from the definition alone. -/
theorem of_ofDefinition (h : NamedType.ofDefinition path d = .ok t) :
    Assembled path d [.ofDefinition path d] t := by
  obtain ⟨-, hadds⟩ := NamedType.adds_of_ofDefinition h
  exact (blank path d).adds hadds (blank path d).kind.symm

/-- A definition whose own members go together defines a type, if it may have its name. -/
theorem exists_ofDefinition
    (hguard : (isReservedName d.name && !path.same Introspection.path) = false)
    (hmerges : Merges d.name d.body.kind [d.body]) :
    ∃ t, NamedType.ofDefinition path d = .ok t :=
  NamedType.exists_ofDefinition hguard ((blank path d).admits hmerges)

/-- What an extension makes of a type is assembled from one part more. -/
theorem extend (h : Assembled path d parts t) {path' : Path} {e : TypeSystem.TypeExtension}
    (hname : e.name = d.name) (hok : t.extend path' e = .ok t') :
    Assembled path d (parts ++ [.ofExtension path' e]) t' := by
  obtain ⟨hkind, -, hadds⟩ := NamedType.adds_of_extend hok
  rw [hname] at hadds
  exact h.adds hadds hkind

/-- A type can be extended by what goes together with its parts. -/
theorem exists_extend (h : Assembled path d parts t) {path' : Path} {e : TypeSystem.TypeExtension}
    (hname : e.name = d.name)
    (hmerges : Merges d.name d.body.kind ((parts ++ [Part.ofExtension path' e]).map Part.body)) :
    ∃ t', t.extend path' e = .ok t' := by
  refine NamedType.exists_extend h.ne_builtIn ?_
  rw [hname]
  exact h.admits hmerges

end Assembled

end GraphQLCheck
