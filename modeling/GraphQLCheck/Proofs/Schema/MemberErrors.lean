import GraphQLCheck.Proofs.Schema.Parameters

/-!
# Errors about the members of a type

The parts of a type are taken one after the other, and a part is not taken if a member or an
interface comes again, or if a name is reserved. `BuildError.TrueOfParts` says of such an error what
it says about the parts, in the order in which they are taken.

Main statements: a definition that is not taken fails with an error that is true of it
(`NamedType.trueOf_ofDefinition`), and so does an extension, as the last part of its type, unless it
is of another kind or the type is built in (`NamedType.trueOf_extend`).
-/

namespace GraphQLCheck

namespace MemberDef

/-- Whether a member is an output field or an input field. -/
def isField : MemberDef → Bool
  | field _ | inputField _ => true
  | value _ | member _ => false

/-- Where a member is written. -/
def location : MemberDef → SourceLocation
  | field f => f.location
  | inputField f => f.location
  | value v => v.location
  | member r => r.location

end MemberDef

/-- Whether an error is true of the type called `type` that is written in some parts. What comes
twice is found at two places of the parts, the one that is taken first being cited first. -/
inductive BuildError.TrueOfParts (type : String) (parts : List Part) : BuildError → Prop where
  | duplicateField {name : String} {first second : MemberDef}
    (htwice : [(name, first), (name, second)].Sublist (parts.flatMap Part.entries))
    (hfirst : first.isField = true) (hsecond : second.isField = true) :
    TrueOfParts type parts (.duplicateField type name first.location second.location)
  | duplicateEnumValue {name : String} {first second : EnumValueDef}
    (htwice : [(name, .value first), (name, .value second)].Sublist
      (parts.flatMap Part.entries)) :
    TrueOfParts type parts (.duplicateEnumValue type name first.location second.location)
  | duplicateMember {name : String} {first second : TypeReference}
    (htwice : [(name, .member first), (name, .member second)].Sublist
      (parts.flatMap Part.entries)) :
    TrueOfParts type parts (.duplicateMember type name first.location second.location)
  | duplicateInterface {first second : TypeReference}
    (htwice : [first, second].Sublist (parts.flatMap Part.interfaces))
    (hname : first.name = second.name) :
    TrueOfParts type parts (.duplicateInterface type second.name second.location)
  | selfImplementation {r : TypeReference} (hr : r ∈ parts.flatMap Part.interfaces)
    (hname : r.name = type) : TrueOfParts type parts (.selfImplementation type r.location)
  | reservedFieldName {name : String} {m : MemberDef}
    (hm : (name, m) ∈ parts.flatMap Part.entries) (hfield : m.isField = true)
    (hname : isReservedName name = true) :
    TrueOfParts type parts (.reservedFieldName type name m.location)
  | reservedParameterName {part : Part} {f : TypeSystem.Field} {v : TypeSystem.InputValue}
    (hpart : part ∈ parts) (hf : f ∈ part.body.fields) (hv : v ∈ f.arguments)
    (hname : isReservedName v.name = true) :
    TrueOfParts type parts
      (.reservedParameterName type f.name v.name (.written part.path v.position))

/-- An error that is true of some parts of a type is true of all of them. -/
theorem BuildError.TrueOfParts.mono {type : String} {parts parts' : List Part} {e : BuildError}
    (h : e.TrueOfParts type parts) (hsub : parts.Sublist parts') : e.TrueOfParts type parts' := by
  have hentries := hsub.flatMap Part.entries
  have hinterfaces := hsub.flatMap Part.interfaces
  cases h with
  | duplicateField htwice hfirst hsecond =>
    exact .duplicateField (htwice.trans hentries) hfirst hsecond
  | duplicateEnumValue htwice => exact .duplicateEnumValue (htwice.trans hentries)
  | duplicateMember htwice => exact .duplicateMember (htwice.trans hentries)
  | duplicateInterface htwice hname => exact .duplicateInterface (htwice.trans hinterfaces) hname
  | selfImplementation hr hname => exact .selfImplementation (hinterfaces.subset hr) hname
  | reservedFieldName hm hfield hname =>
    exact .reservedFieldName (hentries.subset hm) hfield hname
  | reservedParameterName hpart hf hv hname =>
    exact .reservedParameterName (hsub.subset hpart) hf hv hname

/-- If elements cannot all be added, then one of them cannot be added to contents that come before
it in what would have been added. -/
theorem Appends.exists_of_error {σ α γ ε : Type} {step : σ → α → Except ε σ}
    {contents : σ → List γ} {key : γ → String} {item : α → γ} {fits : α → Prop}
    (h : Appends step contents key item fits) {xs : List α} {s : σ} {e : ε}
    (herror : xs.foldlM step s = .error e) :
    ∃ x ∈ xs, ∃ s', step s' x = .error e ∧
      ∀ a ∈ contents s', [a, item x].Sublist (contents s ++ xs.map item) := by
  obtain ⟨before, x, after, s', rfl, hbefore, hx⟩ := foldlM_eq_error herror
  refine ⟨x, List.mem_append_right _ List.mem_cons_self, s', hx, fun a ha => ?_⟩
  -- when the step fails, the contents are those of before and what has been added since
  rw [(h.foldlM_of_ok hbefore).2.1] at ha
  rw [List.map_append, List.map_cons, ← List.append_assoc]
  exact (List.singleton_sublist.2 ha).append (List.Sublist.cons_cons _ (List.nil_sublist _))

namespace Members

variable {path : Path} {type : String}

/-- A field is not added if its name is reserved, if there is one of its name, or if the name of one
of its parameters is reserved. -/
theorem of_addField_error {fields : OrderedMap FieldDef} {f : TypeSystem.Field} {e : BuildError}
    (h : addField path type fields f = .error e) :
    isReservedName f.name = true ∧ e = .reservedFieldName type f.name (.written path f.position) ∨
      (∃ first, (f.name, first) ∈ fields.entries ∧
        e = .duplicateField type f.name first.location (.written path f.position)) ∨
      ∃ v ∈ f.arguments, isReservedName v.name = true ∧
        e = .reservedParameterName type f.name v.name (.written path v.position) := by
  rw [addField] at h
  cases hname : isReservedName f.name with
  | true =>
    rw [hname] at h
    exact .inl ⟨rfl, (Except.error.inj h).symm⟩
  | false =>
    rw [hname] at h
    cases hget : fields.get? f.name with
    | some first =>
      rw [hget] at h
      exact .inr (.inl ⟨first, OrderedMap.get?_eq_some_iff.1 hget, (Except.error.inj h).symm⟩)
    | none =>
      rw [hget] at h
      -- the field is new, so it is one of its parameters that is at fault
      rcases bind_eq_error.1 h with h | ⟨_, -, h⟩
      · rcases bind_eq_error.1 h with h | ⟨_, -, h⟩
        · obtain ⟨before, v, after, parameters, harguments, -, hv⟩ := foldlM_eq_error h
          refine .inr (.inr ⟨v, ?_, ?_⟩)
          · rw [harguments]
            exact List.mem_append_right _ List.mem_cons_self
          · rw [FieldDef.addParameter] at hv
            cases hreserved : isReservedName v.name with
            | true =>
              rw [hreserved] at hv
              exact ⟨rfl, (Except.error.inj hv).symm⟩
            | false =>
              rw [hreserved] at hv
              cases hv
        · cases h
      · cases h

/-- An input field is not added if its name is reserved or if there is one of its name. -/
theorem of_addInputField_error {fields : OrderedMap InputDef} {v : TypeSystem.InputValue}
    {e : BuildError} (h : addInputField path type fields v = .error e) :
    isReservedName v.name = true ∧ e = .reservedFieldName type v.name (.written path v.position) ∨
      ∃ first, (v.name, first) ∈ fields.entries ∧
        e = .duplicateField type v.name first.location (.written path v.position) := by
  rw [addInputField] at h
  cases hname : isReservedName v.name with
  | true =>
    rw [hname] at h
    exact .inl ⟨rfl, (Except.error.inj h).symm⟩
  | false =>
    rw [hname] at h
    cases hget : fields.get? v.name with
    | some first =>
      simp only [hget] at h
      exact .inr ⟨first, OrderedMap.get?_eq_some_iff.1 hget, (Except.error.inj h).symm⟩
    | none =>
      simp only [hget] at h
      cases h

/-- An enum value is not added if there is one of its name. -/
theorem of_addValue_error {values : OrderedMap EnumValueDef} {v : TypeSystem.EnumValue}
    {e : BuildError} (h : addValue path type values v = .error e) :
    ∃ first, (v.name, first) ∈ values.entries ∧
      e = .duplicateEnumValue type v.name first.location (.written path v.position) := by
  rw [addValue] at h
  cases hget : values.get? v.name with
  | some first =>
    rw [hget] at h
    exact ⟨first, OrderedMap.get?_eq_some_iff.1 hget, (Except.error.inj h).symm⟩
  | none =>
    rw [hget] at h
    cases h

variable {location : SourceLocation}

/-- A member of a union is not added if there is one of its name. -/
theorem of_addMember_error {members : OrderedMap TypeReference} {name : String} {e : BuildError}
    (h : addMember location type members name = .error e) :
    ∃ first, (name, first) ∈ members.entries ∧
      e = .duplicateMember type name first.location location := by
  rw [addMember] at h
  cases hget : members.get? name with
  | some first =>
    rw [hget] at h
    exact ⟨first, OrderedMap.get?_eq_some_iff.1 hget, (Except.error.inj h).symm⟩
  | none =>
    rw [hget] at h
    cases h

/-- An interface is not added if it is the type itself or if there is one of its name. -/
theorem of_addInterface_error {interfaces : List TypeReference} {name : String} {e : BuildError}
    (h : addInterface location type interfaces name = .error e) :
    name = type ∧ e = .selfImplementation type location ∨
      (∃ first ∈ interfaces, first.name = name) ∧ e = .duplicateInterface type name location := by
  rw [addInterface] at h
  split at h
  next hself => exact .inl ⟨hself, (Except.error.inj h).symm⟩
  next =>
    split at h
    next hany =>
      obtain ⟨first, hfirst, hname⟩ := List.any_eq_true.1 hany
      exact .inr ⟨⟨first, hfirst, of_decide_eq_true hname⟩, (Except.error.inj h).symm⟩
    next => cases h

end Members

namespace NamedType

open Members

section Kinds

variable {path : Path} {position : Position} {type : String} {parts : List Part} {part : Part}
  {e : BuildError}

/-- What comes twice when the members of a further part are added comes twice in the parts. -/
private theorem sublist_entries {β : Type} (wrap : β → MemberDef) {entries new : List (String × β)}
    (hentries : (entries.map fun e => (e.1, wrap e.2)) = parts.flatMap Part.entries)
    (hpart : part.entries = new.map fun e => (e.1, wrap e.2)) {a b : String × β}
    (h : [a, b].Sublist (entries ++ new)) :
    [(a.1, wrap a.2), (b.1, wrap b.2)].Sublist ((parts ++ [part]).flatMap Part.entries) := by
  rw [List.flatMap_append, List.flatMap_singleton, ← hentries, hpart, ← List.map_append]
  exact h.map fun e => (e.1, wrap e.2)

/-- The members of the last part are among those of all parts. -/
private theorem mem_entries_of_last {entry : String × MemberDef} (h : entry ∈ part.entries) :
    entry ∈ (parts ++ [part]).flatMap Part.entries :=
  List.mem_flatMap.2 ⟨part, List.mem_append_right parts (List.mem_singleton.2 rfl), h⟩

/-- Interfaces that cannot be added to those of some parts. -/
private theorem trueOf_addInterfaces {interfaces : List TypeReference}
    (hinterfaces : interfaces = parts.flatMap Part.interfaces)
    (h : addInterfaces (.written part.path part.position) type interfaces part.body.interfaceNames =
      .error e) : e.TrueOfParts type (parts ++ [part]) := by
  obtain ⟨name, hname, t', hstep, hbefore⟩ := (appends_addInterface _ type).exists_of_error h
  let r : TypeReference := ⟨name, .written part.path part.position⟩
  have hall : (parts ++ [part]).flatMap Part.interfaces = interfaces ++ part.interfaces := by
    rw [List.flatMap_append, List.flatMap_singleton, ← hinterfaces]
  rcases of_addInterface_error hstep with ⟨hself, rfl⟩ | ⟨⟨first, hfirst, hsame⟩, rfl⟩
  · have hr : r ∈ (parts ++ [part]).flatMap Part.interfaces := by
      rw [hall]
      exact List.mem_append_right _ (List.mem_map_of_mem hname)
    exact .selfImplementation hr hself
  · have htwice : [first, r].Sublist ((parts ++ [part]).flatMap Part.interfaces) := by
      rw [hall]
      exact hbefore first hfirst
    exact .duplicateInterface htwice hsame

/-- Fields that cannot be added to those of some parts. -/
private theorem trueOf_addFields {fields : OrderedMap FieldDef}
    (hfields : (fields.entries.map fun e => (e.1, .field e.2)) = parts.flatMap Part.entries)
    (hpart : part.entries =
      part.body.fields.map fun f => (f.name, .field (.written part.path f)))
    (h : addFields part.path type fields part.body.fields = .error e) :
    e.TrueOfParts type (parts ++ [part]) := by
  obtain ⟨f, hf, fields', hstep, hbefore⟩ := (appends_addField _ type).exists_of_error h
  let m : MemberDef := .field (.written part.path f)
  -- the name of the field is at fault, an earlier field, or the name of a parameter
  rcases of_addField_error hstep with ⟨hname, rfl⟩ | ⟨first, hfirst, rfl⟩ | ⟨v, hv, hname, rfl⟩
  · show BuildError.TrueOfParts type _ (.reservedFieldName type f.name m.location)
    refine .reservedFieldName (mem_entries_of_last ?_) rfl hname
    rw [hpart]
    exact List.mem_map_of_mem hf
  · show BuildError.TrueOfParts type _
      (.duplicateField type f.name (MemberDef.field first).location m.location)
    refine .duplicateField (sublist_entries .field hfields ?_ (hbefore _ hfirst)) rfl rfl
    rw [hpart, List.map_map]
    rfl
  · exact .reservedParameterName (List.mem_append_right parts (List.mem_singleton.2 rfl)) hf hv
      hname

/-- Input fields that cannot be added to those of some parts. -/
private theorem trueOf_addInputFields (position : Position) {fields : OrderedMap InputDef}
    {newFields : List TypeSystem.InputValue}
    (hfields : (fields.entries.map fun e => (e.1, .inputField e.2)) = parts.flatMap Part.entries)
    (h : addInputFields path type fields newFields = .error e) :
    e.TrueOfParts type (parts ++ [⟨path, position, .inputObject newFields⟩]) := by
  obtain ⟨v, hv, fields', hstep, hbefore⟩ := (appends_addInputField path type).exists_of_error h
  let m : MemberDef := .inputField (.ofWritten path v)
  rcases of_addInputField_error hstep with ⟨hname, rfl⟩ | ⟨first, hfirst, rfl⟩
  · show BuildError.TrueOfParts type _ (.reservedFieldName type v.name m.location)
    exact .reservedFieldName (mem_entries_of_last (List.mem_map_of_mem hv)) rfl hname
  · show BuildError.TrueOfParts type _
      (.duplicateField type v.name (MemberDef.inputField first).location m.location)
    refine .duplicateField (sublist_entries .inputField hfields ?_ (hbefore _ hfirst)) rfl rfl
    rw [List.map_map]
    rfl

/-- Values that cannot be added to those of some parts. -/
private theorem trueOf_addValues (position : Position) {values : OrderedMap EnumValueDef}
    {newValues : List TypeSystem.EnumValue}
    (hvalues : (values.entries.map fun e => (e.1, .value e.2)) = parts.flatMap Part.entries)
    (h : addValues path type values newValues = .error e) :
    e.TrueOfParts type (parts ++ [⟨path, position, .enum newValues⟩]) := by
  obtain ⟨v, -, values', hstep, hbefore⟩ := (appends_addValue path type).exists_of_error h
  obtain ⟨first, hfirst, rfl⟩ := of_addValue_error hstep
  let second : EnumValueDef := ⟨v.name, .written path v.position, v.description⟩
  show BuildError.TrueOfParts type _
    (.duplicateEnumValue type v.name first.location second.location)
  refine .duplicateEnumValue (sublist_entries .value hvalues ?_ (hbefore _ hfirst))
  rw [List.map_map]
  rfl

/-- Members that cannot be added to those of some parts. -/
private theorem trueOf_addMembers {members : OrderedMap TypeReference} {names : List String}
    (hmembers : (members.entries.map fun e => (e.1, .member e.2)) = parts.flatMap Part.entries)
    (h : addMembers (.written path position) type members names = .error e) :
    e.TrueOfParts type (parts ++ [⟨path, position, .union names⟩]) := by
  obtain ⟨name, -, members', hstep, hbefore⟩ := (appends_addMember _ type).exists_of_error h
  obtain ⟨first, hfirst, rfl⟩ := of_addMember_error hstep
  let second : TypeReference := ⟨name, .written path position⟩
  show BuildError.TrueOfParts type _ (.duplicateMember type name first.location second.location)
  refine .duplicateMember (sublist_entries .member hmembers ?_ (hbefore _ hfirst))
  rw [List.map_map]
  rfl

end Kinds

/-- A definition that is not taken has a reserved name, or fails with an error that is true of it as
the first part of its type. -/
theorem trueOf_ofDefinition {path : Path} {d : TypeSystem.TypeDefinition} {e : BuildError}
    (h : ofDefinition path d = .error e) :
    isReservedName d.name = true ∧ e = .reservedTypeName d.name (.written path d.position) ∨
      e.TrueOfParts d.name [.ofDefinition path d] := by
  rw [ofDefinition] at h
  -- only the introspection types may have reserved names
  cases hguard : isReservedName d.name && !path.same Introspection.path with
  | true =>
    rw [hguard] at h
    exact .inl ⟨(Bool.and_eq_true_iff.1 hguard).1, (Except.error.inj h).symm⟩
  | false =>
    rw [hguard] at h
    refine .inr ?_
    rw [← List.nil_append [Part.ofDefinition path d]]
    obtain ⟨position, description, name, body⟩ := d
    cases body with
    | scalar => cases h
    | object interfaces fields | interface interfaces fields =>
      rcases bind_eq_error.1 (bind_pure_eq_error.1 h) with h | ⟨_, -, h⟩
      · exact trueOf_addFields rfl rfl h
      · exact trueOf_addInterfaces rfl (bind_pure_eq_error.1 h)
    | union members => exact trueOf_addMembers rfl (bind_pure_eq_error.1 h)
    | enum values => exact trueOf_addValues position rfl (bind_pure_eq_error.1 h)
    | inputObject fields => exact trueOf_addInputFields position rfl (bind_pure_eq_error.1 h)

/-- An extension of an object or an interface that cannot be merged. -/
private theorem trueOf_extendFielded {path : Path} {e : TypeSystem.TypeExtension} {t : FieldedType}
    {parts : List Part} {interfaces : List String} {fields : List TypeSystem.Field}
    {error : BuildError}
    (hentries : (t.fields.entries.map fun e => (e.1, .field e.2)) = parts.flatMap Part.entries)
    (hinterfaces : t.interfaces = parts.flatMap Part.interfaces)
    (hbody : e.body = .object interfaces fields ∨ e.body = .interface interfaces fields)
    (h : extendFielded path e interfaces fields t = .error error) :
    error.TrueOfParts e.name (parts ++ [.ofExtension path e]) := by
  obtain ⟨position, name, body⟩ := e
  rcases bind_eq_error.1 h with h | ⟨_, -, h⟩
  · rcases hbody with rfl | rfl <;> exact trueOf_addInterfaces hinterfaces h
  · rcases hbody with rfl | rfl <;>
      exact trueOf_addFields hentries rfl (bind_pure_eq_error.1 h)

/-- An extension that cannot be merged is one of a built-in scalar, or of another kind than the
type, or fails with an error that is true of it as the last part of the type. -/
theorem trueOf_extend {path : Path} {e : TypeSystem.TypeExtension} {t : NamedType}
    {parts : List Part} {error : BuildError} (hentries : t.entries = parts.flatMap Part.entries)
    (hinterfaces : t.interfaces = parts.flatMap Part.interfaces)
    (h : t.extend path e = .error error) :
    (∃ s, t = .builtIn s) ∧ e.body.kind = .scalar ∧
        error = .extensionOfBuiltIn e.name (.written path e.position) ∨
      e.body.kind ≠ t.kind ∧
        error = .extensionOfOtherKind e.name e.body.kind t.kind (.written path e.position) ∨
      (∀ s, t ≠ .builtIn s) ∧ error.TrueOfParts e.name (parts ++ [.ofExtension path e]) := by
  obtain ⟨position, name, body⟩ := e
  -- only a body of the kind of the type is merged, member by member
  cases t with
  | builtIn s =>
    cases body with
    | scalar => exact .inl ⟨⟨s, rfl⟩, rfl, (Except.error.inj h).symm⟩
    | _ => exact .inr (.inl ⟨fun hkind => (nomatch hkind), (Except.error.inj h).symm⟩)
  | scalar t =>
    cases body with
    | scalar => exact nomatch h
    | _ => exact .inr (.inl ⟨fun hkind => (nomatch hkind), (Except.error.inj h).symm⟩)
  | object t =>
    cases body with
    | object interfaces fields =>
      have herror := trueOf_extendFielded hentries hinterfaces (.inl rfl) (bind_pure_eq_error.1 h)
      exact .inr (.inr ⟨fun s hs => (nomatch hs), herror⟩)
    | _ => exact .inr (.inl ⟨fun hkind => (nomatch hkind), (Except.error.inj h).symm⟩)
  | interface t =>
    cases body with
    | interface interfaces fields =>
      have herror := trueOf_extendFielded hentries hinterfaces (.inr rfl) (bind_pure_eq_error.1 h)
      exact .inr (.inr ⟨fun s hs => (nomatch hs), herror⟩)
    | _ => exact .inr (.inl ⟨fun hkind => (nomatch hkind), (Except.error.inj h).symm⟩)
  | union t =>
    cases body with
    | union members =>
      have herror := trueOf_addMembers hentries (bind_pure_eq_error.1 h)
      exact .inr (.inr ⟨fun s hs => (nomatch hs), herror⟩)
    | _ => exact .inr (.inl ⟨fun hkind => (nomatch hkind), (Except.error.inj h).symm⟩)
  | enum t =>
    cases body with
    | enum values =>
      have herror := trueOf_addValues position hentries (bind_pure_eq_error.1 h)
      exact .inr (.inr ⟨fun s hs => (nomatch hs), herror⟩)
    | _ => exact .inr (.inl ⟨fun hkind => (nomatch hkind), (Except.error.inj h).symm⟩)
  | inputObject t =>
    cases body with
    | inputObject fields =>
      have herror := trueOf_addInputFields position hentries (bind_pure_eq_error.1 h)
      exact .inr (.inr ⟨fun s hs => (nomatch hs), herror⟩)
    | _ => exact .inr (.inl ⟨fun hkind => (nomatch hkind), (Except.error.inj h).symm⟩)

end NamedType

end GraphQLCheck
