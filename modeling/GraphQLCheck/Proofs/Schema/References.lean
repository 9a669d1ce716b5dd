import GraphQLCheck.Proofs.Schema.Assembly
import GraphQLCheck.Schema.References
import Mathlib.Tactic.ByContra

/-!
# Which references are allowed

`HasKind` says that a name stands for a type of some kind in a map of types. Whether a member or a
body refers to other types as it may depends on the kinds of types only, so `Resolves` is stated for
any relation between names and kinds.

Main statement: the check of a map of types finds no error just if every type has only references
that are allowed, and no enum is empty (`referenceErrors_eq_nil_iff`).
-/

namespace GraphQLCheck

namespace TypeKind

/-- Whether a type of the kind may be the type of an input. -/
def isInput : TypeKind → Bool
  | scalar | enum | inputObject => true
  | object | interface | union => false

/-- Whether a type of the kind may be the type of an output. -/
def isOutput : TypeKind → Bool
  | inputObject => false
  | _ => true

/-- Whether some kind has a decidable property is decidable. -/
instance {p : TypeKind → Prop} [DecidablePred p] : Decidable (∃ kind, p kind) :=
  decidable_of_iff (∃ kind ∈ [scalar, object, interface, union, enum, inputObject], p kind)
    ⟨fun ⟨kind, _, h⟩ => ⟨kind, h⟩, fun ⟨kind, h⟩ => ⟨kind, by cases kind <;> decide, h⟩⟩

end TypeKind

/-- Whether a type may be the type of an input depends on its kind. -/
theorem NamedType.isInput_eq (t : NamedType) : t.isInput = t.kind.isInput := by
  rw [NamedType.isInput]
  cases t.kind <;> rfl

/-- Whether a type may be the type of an output depends on its kind. -/
theorem NamedType.isOutput_eq (t : NamedType) : t.isOutput = t.kind.isOutput := by
  rw [NamedType.isOutput]
  cases t.kind <;> rfl

/-- The innermost type of an annotated type is that of the written type. -/
@[simp]
theorem AnnotatedType.name_core_ofExpr (location : SourceLocation) (type : TypeExpr) :
    (AnnotatedType.ofExpr location type).core.name = type.coreName := by
  rw [ofExpr]
  generalize true = nullable
  induction type generalizing nullable with
  | named name => rfl
  | list item ih => exact ih true
  | nonNull inner ih => exact ih false

section Resolves

variable (hasKind : String → TypeKind → Prop)

/-- Whether a name stands for a type that may be the type of an input. -/
def StandsForInput (name : String) : Prop := ∃ kind, hasKind name kind ∧ kind.isInput = true

/-- Whether a name stands for a type that may be the type of an output. -/
def StandsForOutput (name : String) : Prop := ∃ kind, hasKind name kind ∧ kind.isOutput = true

/-- Whether a member, under its name, refers to other types as it may. -/
def MemberDef.Resolves (name : String) : MemberDef → Prop
  | .field f => StandsForOutput hasKind f.type.core.name ∧
      ∀ p ∈ f.parameters.values, StandsForInput hasKind p.type.core.name
  | .inputField f => StandsForInput hasKind f.type.core.name
  | .value _ => True
  | .member _ => hasKind name .object

namespace TypeSystem

/-- The arguments of a field that stay: of several with one name, the last. -/
def Field.parameters (f : Field) : List InputValue :=
  go f.arguments
where
  /-- The arguments of a list that stay. -/
  go : List InputValue → List InputValue
    | [] => []
    | v :: vs => if v.name ∈ vs.map InputValue.name then go vs else v :: go vs

/-- Whether a field and its parameters refer to other types as they may. -/
def Field.Resolves (f : Field) : Prop :=
  StandsForOutput hasKind f.type.coreName ∧
    ∀ v ∈ f.parameters, StandsForInput hasKind v.type.coreName

/-- Whether a body refers to other types as it may. -/
def Body.Resolves : Body → Prop
  | scalar | enum _ => True
  | object interfaces fields | interface interfaces fields =>
    (∀ name ∈ interfaces, hasKind name .interface) ∧ ∀ f ∈ fields, f.Resolves hasKind
  | union members => ∀ name ∈ members, hasKind name .object
  | inputObject fields => ∀ v ∈ fields, StandsForInput hasKind v.type.coreName

section Decidable

variable [∀ name kind, Decidable (hasKind name kind)]

/-- Whether a name stands for a type of an input is decidable if it is for each kind. -/
instance (name : String) : Decidable (StandsForInput hasKind name) := by
  unfold StandsForInput
  infer_instance

/-- Whether a name stands for a type of an output is decidable if it is for each kind. -/
instance (name : String) : Decidable (StandsForOutput hasKind name) := by
  unfold StandsForOutput
  infer_instance

/-- Whether a field refers to other types as it may is decidable. -/
instance (f : Field) : Decidable (f.Resolves hasKind) := by
  unfold Field.Resolves
  infer_instance

/-- Whether a body refers to other types as it may is decidable. -/
instance (body : Body) : Decidable (body.Resolves hasKind) :=
  match body with
  | .scalar | .enum _ => .isTrue trivial
  | .object .. | .interface .. => inferInstanceAs (Decidable (_ ∧ _))
  | .union _ | .inputObject _ => inferInstanceAs (Decidable (∀ _ ∈ _, _))

end Decidable

end TypeSystem

/-- The arguments that stay are the last ones of their names. -/
theorem TypeSystem.Field.mem_parameters_go {v : TypeSystem.InputValue}
    {vs : List TypeSystem.InputValue} :
    v ∈ Field.parameters.go vs ↔
      ∃ before after, vs = before ++ v :: after ∧ v.name ∉ after.map InputValue.name := by
  induction vs with
  | nil => exact ⟨fun h => (nomatch h), fun ⟨_, _, h, _⟩ => absurd h.symm (by simp)⟩
  | cons w vs ih =>
    -- an argument at the front stays if no later one has its name
    have hmem : v ∈ Field.parameters.go (w :: vs) ↔
        v = w ∧ w.name ∉ vs.map InputValue.name ∨ v ∈ Field.parameters.go vs := by
      rw [Field.parameters.go]
      by_cases h : w.name ∈ vs.map InputValue.name
      · rw [if_pos h]
        exact ⟨.inr, fun hv => hv.resolve_left fun hv => hv.2 h⟩
      · rw [if_neg h, List.mem_cons]
        exact or_congr_left ⟨fun hv => ⟨hv, h⟩, And.left⟩
    rw [hmem, ih]
    constructor
    · -- whether the argument is at the front is whether something stands before it
      rintro (⟨rfl, h⟩ | ⟨before, after, rfl, h⟩)
      · exact ⟨[], vs, rfl, h⟩
      · exact ⟨w :: before, after, rfl, h⟩
    · rintro ⟨_ | ⟨w', before⟩, after, heq, h⟩
      · obtain ⟨rfl, rfl⟩ := List.cons.inj heq
        exact .inl ⟨rfl, h⟩
      · obtain ⟨rfl, rfl⟩ := List.cons.inj heq
        exact .inr ⟨before, after, rfl, h⟩

/-- The parameters that are left when arguments are inserted by name are the arguments that stay. -/
theorem InputDef.mem_values_ofList {path : Path} {vs : List TypeSystem.InputValue} {p : InputDef} :
    p ∈ (OrderedMap.ofList (vs.map fun v => (v.name, ofWritten path v))).values ↔
      ∃ v ∈ TypeSystem.Field.parameters.go vs, p = .ofWritten path v := by
  rw [OrderedMap.values, List.mem_map]
  constructor
  · rintro ⟨⟨k, p'⟩, hmem, rfl⟩
    obtain ⟨before, after, heq, hlast⟩ := OrderedMap.mem_entries_ofList.1 hmem
    obtain ⟨before', rest, hsplit, -, hrest⟩ := List.map_eq_append_iff.1 heq
    obtain ⟨v, after', rfl, hv, rfl⟩ := List.map_eq_cons_iff.1 hrest
    obtain ⟨rfl, rfl⟩ := Prod.mk.inj hv
    rw [List.map_map] at hlast
    exact ⟨v, TypeSystem.Field.mem_parameters_go.2 ⟨before', after', hsplit, hlast⟩, rfl⟩
  · rintro ⟨v, hv, rfl⟩
    obtain ⟨before, after, hsplit, hlast⟩ := TypeSystem.Field.mem_parameters_go.1 hv
    let entry (v : TypeSystem.InputValue) : String × InputDef := (v.name, .ofWritten path v)
    refine ⟨entry v, OrderedMap.mem_entries_ofList.2 ?_, rfl⟩
    refine ⟨before.map entry, after.map entry, ?_, ?_⟩
    · rw [hsplit, List.map_append, List.map_cons]
    · rw [List.map_map]
      exact hlast

/-- A written field refers to other types as it may if it does so as it is written. -/
theorem FieldDef.resolves_written {path : Path} {f : TypeSystem.Field} {name : String} :
    (MemberDef.field (written path f)).Resolves hasKind name ↔ f.Resolves hasKind := by
  refine and_congr ?_ ⟨fun h v hv => ?_, fun h p hp => ?_⟩
  · rw [written, AnnotatedType.name_core_ofExpr]
  · have hp := h (.ofWritten path v) (InputDef.mem_values_ofList.2 ⟨v, hv, rfl⟩)
    rw [InputDef.ofWritten, AnnotatedType.name_core_ofExpr] at hp
    exact hp
  · obtain ⟨v, hv, rfl⟩ := InputDef.mem_values_ofList.1 hp
    rw [InputDef.ofWritten, AnnotatedType.name_core_ofExpr]
    exact h v hv

/-- A body refers to other types as it may if the interfaces and members that it contributes do. -/
theorem Part.resolves_iff (part : Part) :
    part.body.Resolves hasKind ↔ (∀ r ∈ part.interfaces, hasKind r.name .interface) ∧
      ∀ e ∈ part.entries, e.2.Resolves hasKind e.1 := by
  obtain ⟨path, position, body⟩ := part
  cases body with
  | scalar => exact ⟨fun _ => ⟨fun _ hr => (nomatch hr), fun _ he => nomatch he⟩, fun _ => trivial⟩
  | object interfaces fields | interface interfaces fields =>
    have hinterfaces : (∀ r ∈ interfaces.map fun name => TypeReference.mk name
        (.written path position), hasKind r.name .interface) ↔
        ∀ name ∈ interfaces, hasKind name .interface := List.forall_mem_map
    have hfields : (∀ e ∈ fields.map fun f => (f.name, MemberDef.field (.written path f)),
        e.2.Resolves hasKind e.1) ↔ ∀ f ∈ fields, f.Resolves hasKind := by
      rw [List.forall_mem_map]
      simp only [FieldDef.resolves_written]
    exact and_congr hinterfaces.symm hfields.symm
  | union members =>
    exact ⟨fun h => ⟨fun _ hr => (nomatch hr), List.forall_mem_map.2 h⟩,
      fun h => List.forall_mem_map.1 h.2⟩
  | enum values =>
    exact ⟨fun _ => ⟨fun _ hr => (nomatch hr), List.forall_mem_map.2 fun _ _ => trivial⟩,
      fun _ => trivial⟩
  | inputObject fields =>
    have hfields : (∀ v ∈ fields, StandsForInput hasKind v.type.coreName) ↔
        ∀ e ∈ fields.map fun v => (v.name, MemberDef.inputField (.ofWritten path v)),
          e.2.Resolves hasKind e.1 := by
      rw [List.forall_mem_map]
      simp only [MemberDef.Resolves, InputDef.ofWritten, AnnotatedType.name_core_ofExpr]
    exact hfields.trans ⟨fun h => ⟨fun _ hr => (nomatch hr), h⟩, And.right⟩

end Resolves

namespace TypeMap

/-- Whether a name stands for a type of some kind. -/
def HasKind (types : TypeMap) (name : String) (kind : TypeKind) : Prop :=
  ∃ t, types.get? name = some t ∧ t.kind = kind

variable {types : TypeMap}

/-- A type is used as it may if its innermost type is defined and allowed. -/
theorem useErrors_eq_nil_iff {type : AnnotatedType} {allowed : NamedType → Bool}
    {allowedKind : TypeKind → Bool} {notAllowed : String → ReferenceError}
    (hallowed : ∀ t, allowed t = allowedKind t.kind) :
    types.useErrors type allowed notAllowed = [] ↔
      ∃ kind, types.HasKind type.core.name kind ∧ allowedKind kind = true := by
  simp only [useErrors, HasKind, hallowed]
  -- a name that stands for no type is an error of its own
  cases types.get? type.core.name with
  | none => exact ⟨fun h => (nomatch h), fun ⟨_, ⟨_, h, _⟩, _⟩ => nomatch h⟩
  | some t =>
    constructor
    · intro h
      refine ⟨t.kind, ⟨t, rfl, rfl⟩, ?_⟩
      by_contra hnot
      simp only [if_neg hnot] at h
      exact nomatch h
    · rintro ⟨kind, ⟨t', ht', rfl⟩, hkind⟩
      obtain rfl := Option.some.inj ht'
      exact if_pos hkind

/-- An interface is implemented as it may if it is one. -/
theorem interfaceErrors_eq_nil_iff {t : FieldedType} {name : String} :
    types.interfaceErrors t name = [] ↔ types.HasKind name .interface := by
  rw [interfaceErrors, HasKind]
  cases types.get? name with
  | none => exact ⟨fun h => (nomatch h), fun ⟨_, h, _⟩ => nomatch h⟩
  | some t =>
    cases t with
    | interface t => exact ⟨fun _ => ⟨_, rfl, rfl⟩, fun _ => rfl⟩
    | _ =>
      refine ⟨fun h => (nomatch h), fun ⟨t', ht', hkind⟩ => ?_⟩
      obtain rfl := Option.some.inj ht'
      exact nomatch hkind

/-- A member of a union is listed as it may if it is an object. -/
theorem memberErrors_eq_nil_iff {union : String} {entry : String × TypeReference} :
    types.memberErrors union entry = [] ↔ types.HasKind entry.1 .object := by
  rw [memberErrors, HasKind]
  cases types.get? entry.1 with
  | none => exact ⟨fun h => (nomatch h), fun ⟨_, h, _⟩ => nomatch h⟩
  | some t =>
    cases t with
    | object t => exact ⟨fun _ => ⟨_, rfl, rfl⟩, fun _ => rfl⟩
    | _ =>
      refine ⟨fun h => (nomatch h), fun ⟨t', ht', hkind⟩ => ?_⟩
      obtain rfl := Option.some.inj ht'
      exact nomatch hkind

/-- A field of a type has no errors if it resolves. -/
theorem fieldErrors_eq_nil_iff {type : String} {entry : String × FieldDef} :
    types.fieldErrors type entry = [] ↔
      (MemberDef.field entry.2).Resolves types.HasKind entry.1 := by
  rw [fieldErrors, List.append_eq_nil_iff, List.flatMap_eq_nil_iff]
  refine and_congr (useErrors_eq_nil_iff NamedType.isOutput_eq) (forall_congr' fun p => ?_)
  exact imp_congr_right fun _ => useErrors_eq_nil_iff NamedType.isInput_eq

/-- The type under a name has no errors if its interfaces and members resolve, and it is no empty
enum. -/
theorem typeErrors_eq_nil_iff {entry : String × NamedType} :
    types.typeErrors entry = [] ↔
      (∀ r ∈ entry.2.interfaces, types.HasKind r.name .interface) ∧
      (∀ e ∈ entry.2.entries, e.2.Resolves types.HasKind e.1) ∧
      (entry.2.kind = .enum → entry.2.entries ≠ []) := by
  obtain ⟨name, t⟩ := entry
  cases t with
  | builtIn _ | scalar _ =>
    -- a scalar has neither interfaces nor members
    refine ⟨fun _ => ?_, fun _ => rfl⟩
    exact ⟨fun _ hr => (nomatch hr), fun _ he => (nomatch he), fun hkind => nomatch hkind⟩
  | object t | interface t =>
    have hfielded : types.fieldedErrors t = [] ↔
        (∀ r ∈ t.interfaces, types.HasKind r.name .interface) ∧
          ∀ e ∈ t.fields.entries, (MemberDef.field e.2).Resolves types.HasKind e.1 := by
      rw [fieldedErrors, List.append_eq_nil_iff, List.flatMap_eq_nil_iff, List.flatMap_eq_nil_iff,
        FieldedType.interfaceNames, List.forall_mem_map]
      simp only [interfaceErrors_eq_nil_iff, fieldErrors_eq_nil_iff]
    refine hfielded.trans ⟨fun ⟨hinterfaces, hfields⟩ => ⟨hinterfaces, ?_, fun h => nomatch h⟩,
      fun ⟨hinterfaces, hfields, _⟩ => ⟨hinterfaces, ?_⟩⟩
    · exact List.forall_mem_map.2 hfields
    · exact List.forall_mem_map.1 hfields
  | union t =>
    rw [typeErrors, List.flatMap_eq_nil_iff]
    simp only [memberErrors_eq_nil_iff]
    refine ⟨fun h => ⟨fun _ hr => (nomatch hr), ?_, fun h => nomatch h⟩, fun ⟨_, h, _⟩ => ?_⟩
    · exact List.forall_mem_map.2 h
    · exact fun e he => h (e.1, .member e.2) (List.mem_map.2 ⟨e, he, rfl⟩)
  | enum t =>
    simp only [typeErrors]
    constructor
    · intro h
      refine ⟨fun _ hr => (nomatch hr), ?_, fun _ hnil => ?_⟩
      · exact List.forall_mem_map.2 fun _ _ => trivial
      · rw [if_pos (List.map_eq_nil_iff.1 hnil)] at h
        exact nomatch h
    · rintro ⟨-, -, hvalues⟩
      exact if_neg fun hnil => hvalues rfl (List.map_eq_nil_iff.2 hnil)
  | inputObject t =>
    rw [typeErrors, List.flatMap_eq_nil_iff]
    refine ⟨fun h => ⟨fun _ hr => (nomatch hr), ?_, fun h => nomatch h⟩, fun ⟨_, h, _⟩ => ?_⟩
    · exact List.forall_mem_map.2 fun e he =>
        (useErrors_eq_nil_iff NamedType.isInput_eq).1 (h e he)
    · exact fun e he =>
        (useErrors_eq_nil_iff NamedType.isInput_eq).2 (List.forall_mem_map.1 h e he)

/-- The check finds no error if no type has one. -/
theorem referenceErrors_eq_nil_iff :
    types.referenceErrors = [] ↔ ∀ name t, types.get? name = some t →
      (∀ r ∈ t.interfaces, types.HasKind r.name .interface) ∧
      (∀ e ∈ t.entries, e.2.Resolves types.HasKind e.1) ∧ (t.kind = .enum → t.entries ≠ []) := by
  rw [referenceErrors, List.flatMap_eq_nil_iff]
  simp only [sortedEntries, List.mem_mergeSort, typeErrors_eq_nil_iff, Prod.forall,
    OrderedMap.get?_eq_some_iff]

end TypeMap

end GraphQLCheck
