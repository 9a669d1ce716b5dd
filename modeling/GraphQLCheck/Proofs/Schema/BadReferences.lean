import GraphQLCheck.Proofs.ListsInOrder
import GraphQLCheck.Proofs.OrderedMap
import GraphQLCheck.Proofs.Text.ByteOrder
import GraphQLCheck.Schema.Builder

/-!
# Which references are reported, and in which order

The check of a map of types goes over the types by name and reports references that are not allowed.
`TypeMap.ErrorAt` says, spot by spot, what is wrong with a type, and only asks the map which type a
name stands for. Spots are ordered by their addresses: interfaces come before fields, and a field
before its parameters.

Main statements: the check lists what is wrong in the order of the spots, once for each spot
(`TypeMap.listsInOrder_referenceErrors`), and so a map passes or fails with this list, whatever the
order of its entries (`references_checked`).
-/

namespace GraphQLCheck

/-- Where in a type something may be wrong. Interfaces, fields, parameters and members are counted
in the order in which the type lists them. -/
inductive Spot where
  /-- The values of an enum as a whole. -/
  | values
  | interface (i : Nat)
  | field (i : Nat)
  | parameter (i j : Nat)
  | inputField (i : Nat)
  | member (i : Nat)

namespace Spot

/-- The address of a spot. Addresses are compared number by number, and one that another one
continues comes first. -/
def address : Spot → List Nat
  | values => []
  | interface i => [0, i]
  | field i => [1, i]
  | parameter i j => [1, i, j]
  | inputField i => [i]
  | member i => [i]

/-- Whether a spot of a type comes before another one. -/
def Before (a b : Spot) : Prop := a.address < b.address

end Spot

section Errors

variable (type? : String → Option NamedType)

/-- The error for a name under which an allowed type is expected: there is no type under the name,
or one that is not allowed. -/
inductive NameError (name : String) (allowed : NamedType → Bool) (undefined : ReferenceError)
    (notAllowed : NamedType → ReferenceError) : ReferenceError → Prop where
  | undefined (h : type? name = none) : NameError name allowed undefined notAllowed undefined
  | notAllowed {t : NamedType} (h : type? name = some t) (ht : allowed t = false) :
    NameError name allowed undefined notAllowed (notAllowed t)

/-- The error for something that has an annotated type. -/
def AnnotatedType.HasError (type : AnnotatedType) (allowed : NamedType → Bool)
    (notAllowed : String → ReferenceError) : ReferenceError → Prop :=
  NameError type? type.core.name allowed (.undefinedType type.core.location type.core.name)
    fun _ => notAllowed type.core.name

/-- The error for a name that an object or an interface lists as an interface. -/
def FieldedType.HasInterfaceError (t : FieldedType) (name : String) : ReferenceError → Prop :=
  NameError type? name (·.kind = .interface)
    (.implementsUndefinedInterface t.location t.name name)
    fun _ => .implementsNonInterface t.location t.name name

/-- The error for a name that a union lists as a member. -/
def TypeReference.HasMemberError (r : TypeReference) (union name : String) :
    ReferenceError → Prop :=
  NameError type? name (·.kind = .object) (.undefinedType r.location name)
    fun t => .nonObjectUnionMember r.location union name t.kind

/-- The errors of the field of some index of an object or an interface. -/
inductive FieldedType.FieldErrorAt (t : FieldedType) (i : Nat) (entry : String × FieldDef) :
    Spot → ReferenceError → Prop where
  | type {e : ReferenceError} (he : entry.2.type.HasError type? NamedType.isOutput
      (.outputFieldOfInputType entry.2.location t.name entry.1) e) :
    FieldErrorAt t i entry (.field i) e
  | parameter {j : Nat} {p : InputDef} {e : ReferenceError}
      (hp : entry.2.parameters.values[j]? = some p)
      (he : p.type.HasError type? NamedType.isInput (.parameterOfOutputType p.location p.name) e) :
    FieldErrorAt t i entry (.parameter i j) e

/-- The errors of an object or an interface. -/
inductive FieldedType.ErrorAt (t : FieldedType) : Spot → ReferenceError → Prop where
  | interface {i : Nat} {name : String} {e : ReferenceError}
      (hname : t.interfaceNames[i]? = some name) (he : t.HasInterfaceError type? name e) :
    ErrorAt t (.interface i) e
  | field {i : Nat} {entry : String × FieldDef} {spot : Spot} {e : ReferenceError}
      (hentry : t.fields.entries[i]? = some entry) (he : t.FieldErrorAt type? i entry spot e) :
    ErrorAt t spot e

/-- The errors of a type that is defined under a name. -/
inductive NamedType.ErrorAt (name : String) : NamedType → Spot → ReferenceError → Prop where
  | object {t : FieldedType} {spot : Spot} {e : ReferenceError} (he : t.ErrorAt type? spot e) :
    ErrorAt name (.object t) spot e
  | interface {t : FieldedType} {spot : Spot} {e : ReferenceError} (he : t.ErrorAt type? spot e) :
    ErrorAt name (.interface t) spot e
  | union {t : UnionType} {i : Nat} {member : String} {r : TypeReference} {e : ReferenceError}
      (hr : t.members.entries[i]? = some (member, r))
      (he : r.HasMemberError type? name member e) : ErrorAt name (.union t) (.member i) e
  | enum {t : EnumType} (ht : t.values.entries = []) :
    ErrorAt name (.enum t) .values (.emptyEnum t.location name)
  | inputObject {t : InputObjectType} {i : Nat} {field : String} {f : InputDef} {e : ReferenceError}
      (hf : t.fields.entries[i]? = some (field, f))
      (he : f.type.HasError type? NamedType.isInput
        (.inputFieldOfOutputType f.location name field) e) :
    ErrorAt name (.inputObject t) (.inputField i) e

end Errors

/-- Whether a spot of one type comes before a spot of another one, or of the same: the names of the
types are compared by their bytes. -/
def SpotBefore (a b : String × Spot) : Prop :=
  utf8Bytes a.1 < utf8Bytes b.1 ∨ a.1 = b.1 ∧ a.2.Before b.2

/-- No two spots come before each other. -/
theorem spotBefore_asymm (a b : String × Spot) (h : SpotBefore a b) : ¬ SpotBefore b a := by
  rintro h'
  rcases h with h | ⟨hname, h⟩ <;> rcases h' with h' | ⟨hname', h'⟩
  · exact List.lt_asymm h h'
  · exact List.lt_irrefl _ (hname' ▸ h)
  · exact List.lt_irrefl _ (hname ▸ h')
  · exact List.lt_asymm h h'

namespace TypeMap

variable (types : TypeMap)

/-- What is wrong at a spot of a type of a map. -/
def ErrorAt (place : String × Spot) (e : ReferenceError) : Prop :=
  ∃ t, types.get? place.1 = some t ∧ t.ErrorAt types.get? place.1 place.2 e

variable {types}

/-- What is listed for a name under which an allowed type is expected, if `found` is the type under
the name. -/
def nameErrors (found : Option NamedType) (allowed : NamedType → Bool) (undefined : ReferenceError)
    (notAllowed : NamedType → ReferenceError) : List ReferenceError :=
  match found with
  | some t => if allowed t then [] else [notAllowed t]
  | none => [undefined]

/-- At a single spot, the error for a name is listed. -/
theorem listsInOrder_nameErrors (type? : String → Option NamedType) (spot : Spot) (name : String)
    (allowed : NamedType → Bool) (undefined : ReferenceError)
    (notAllowed : NamedType → ReferenceError) :
    ListsInOrder Spot.Before
      (fun k e => k = spot ∧ NameError type? name allowed undefined notAllowed e)
      (nameErrors (type? name) allowed undefined notAllowed) := by
  -- what the name stands for decides which of the two errors there can be
  cases hget : type? name with
  | none =>
    refine .singleton (k := spot) fun k e => and_congr_right fun _ => ⟨fun he => ?_, ?_⟩
    · cases he with
      | undefined => rfl
      | notAllowed h => exact nomatch hget.symm.trans h
    · rintro rfl
      exact .undefined hget
  | some t =>
    rw [nameErrors]
    split
    next hallowed =>
      refine .nil fun k e ⟨_, he⟩ => ?_
      cases he with
      | undefined h => exact nomatch hget.symm.trans h
      | notAllowed h ht =>
        obtain rfl := Option.some.inj (hget.symm.trans h)
        exact nomatch hallowed.symm.trans ht
    next hallowed =>
      refine .singleton (k := spot) fun k e => and_congr_right fun _ => ⟨fun he => ?_, ?_⟩
      · cases he with
        | undefined h => exact nomatch hget.symm.trans h
        | notAllowed h _ => rw [Option.some.inj (hget.symm.trans h)]
      · rintro rfl
        exact .notAllowed hget (Bool.eq_false_iff.2 hallowed)

/-- The check of an annotated type lists its error. -/
theorem listsInOrder_useErrors (spot : Spot) (type : AnnotatedType) (allowed : NamedType → Bool)
    (notAllowed : String → ReferenceError) :
    ListsInOrder Spot.Before
      (fun k e => k = spot ∧ type.HasError types.get? allowed notAllowed e)
      (types.useErrors type allowed notAllowed) :=
  listsInOrder_nameErrors types.get? spot type.core.name allowed _ _

/-- The check of an interface lists its error. -/
theorem listsInOrder_interfaceErrors (spot : Spot) (t : FieldedType) (name : String) :
    ListsInOrder Spot.Before (fun k e => k = spot ∧ t.HasInterfaceError types.get? name e)
      (types.interfaceErrors t name) := by
  have hkind : types.interfaceErrors t name = nameErrors (types.get? name) (·.kind = .interface)
      (.implementsUndefinedInterface t.location t.name name)
      fun _ => .implementsNonInterface t.location t.name name := by
    rw [interfaceErrors]
    cases types.get? name with
    | none => rfl
    | some u => cases u <;> rfl
  rw [hkind]
  exact listsInOrder_nameErrors types.get? spot name _ _ _

/-- The check of a member of a union lists its error. -/
theorem listsInOrder_memberErrors (spot : Spot) (union : String) (entry : String × TypeReference) :
    ListsInOrder Spot.Before
      (fun k e => k = spot ∧ entry.2.HasMemberError types.get? union entry.1 e)
      (types.memberErrors union entry) := by
  have hkind : types.memberErrors union entry = nameErrors (types.get? entry.1) (·.kind = .object)
      (.undefinedType entry.2.location entry.1)
      fun t => .nonObjectUnionMember entry.2.location union entry.1 t.kind := by
    rw [memberErrors]
    cases types.get? entry.1 with
    | none => rfl
    | some u => cases u <;> rfl
  rw [hkind]
  exact listsInOrder_nameErrors types.get? spot entry.1 _ _ _

/-- The check of a field lists the error of its own type before those of its parameters. -/
theorem listsInOrder_fieldErrors (t : FieldedType) (i : Nat) (entry : String × FieldDef) :
    ListsInOrder Spot.Before (t.FieldErrorAt types.get? i entry)
      (types.fieldErrors t.name entry) := by
  have hparameters : ListsInOrder Spot.Before (fun spot e => ∃ j p,
      entry.2.parameters.values[j]? = some p ∧ spot = .parameter i j ∧
        p.type.HasError types.get? NamedType.isInput (.parameterOfOutputType p.location p.name) e)
      (entry.2.parameters.values.flatMap types.parameterErrors) := by
    refine .flatMap_zipIdx (fun j p => listsInOrder_useErrors ..) ?_
    rintro j j' _ _ hj _ _ _ _ ⟨rfl, -⟩ ⟨rfl, -⟩
    exact List.Lex.cons (.cons (.rel hj))
  have htype : ListsInOrder Spot.Before (fun spot e => spot = .field i ∧
      entry.2.type.HasError types.get? NamedType.isOutput
        (.outputFieldOfInputType entry.2.location t.name entry.1) e)
      (types.useErrors entry.2.type NamedType.isOutput
        (.outputFieldOfInputType entry.2.location t.name entry.1)) := listsInOrder_useErrors ..
  have hall := htype.append hparameters (by
    rintro _ _ _ _ ⟨rfl, -⟩ ⟨j, _, -, rfl, -⟩
    exact List.Lex.cons (.cons .nil))
  refine hall.congr fun spot e => ⟨?_, fun he => ?_⟩
  · rintro (⟨rfl, he⟩ | ⟨j, p, hp, rfl, he⟩)
    · exact .type he
    · exact .parameter hp he
  · cases he with
    | type he => exact .inl ⟨rfl, he⟩
    | parameter hp he => exact .inr ⟨_, _, hp, rfl, he⟩

/-- The check of an object or an interface lists its errors: those of its interfaces before those of
its fields. -/
theorem listsInOrder_fieldedErrors (t : FieldedType) :
    ListsInOrder Spot.Before (t.ErrorAt types.get?) (types.fieldedErrors t) := by
  have hinterfaces : ListsInOrder Spot.Before (fun spot e => ∃ i name,
      t.interfaceNames[i]? = some name ∧ spot = .interface i ∧
        t.HasInterfaceError types.get? name e)
      (t.interfaceNames.flatMap (types.interfaceErrors t)) := by
    refine .flatMap_zipIdx (fun i name => listsInOrder_interfaceErrors ..) ?_
    rintro i j _ _ hij _ _ _ _ ⟨rfl, -⟩ ⟨rfl, -⟩
    exact List.Lex.cons (.rel hij)
  have hfields : ListsInOrder Spot.Before (fun spot e => ∃ i entry,
      t.fields.entries[i]? = some entry ∧ t.FieldErrorAt types.get? i entry spot e)
      (t.fields.entries.flatMap (types.fieldErrors t.name)) := by
    refine .flatMap_zipIdx (listsInOrder_fieldErrors t) fun i j _ _ hij _ _ _ _ he he' => ?_
    -- the address of a field, and of each of its parameters, begins with the index of the field
    cases he <;> cases he' <;> exact List.Lex.cons (.rel hij)
  have hall := hinterfaces.append hfields (by
    rintro _ _ _ _ ⟨i, _, -, rfl, -⟩ ⟨j, _, -, he⟩
    cases he <;> exact List.Lex.rel Nat.zero_lt_one)
  refine hall.congr fun spot e => ⟨?_, fun he => ?_⟩
  · rintro (⟨i, name, hname, rfl, he⟩ | ⟨i, entry, hentry, he⟩)
    · exact .interface hname he
    · exact .field hentry he
  · cases he with
    | interface hname he => exact .inl ⟨_, _, hname, rfl, he⟩
    | field hentry he => exact .inr ⟨_, _, hentry, he⟩

/-- The check of the type under a name lists its errors. -/
theorem listsInOrder_typeErrors (name : String) (t : NamedType) :
    ListsInOrder Spot.Before (t.ErrorAt types.get? name) (types.typeErrors (name, t)) := by
  cases t with
  | builtIn _ | scalar _ => exact .nil fun _ _ he => nomatch he
  | object t =>
    refine (listsInOrder_fieldedErrors t).congr fun spot e => ⟨.object, fun he => ?_⟩
    cases he with
    | object he => exact he
  | interface t =>
    refine (listsInOrder_fieldedErrors t).congr fun spot e => ⟨.interface, fun he => ?_⟩
    cases he with
    | interface he => exact he
  | union t =>
    -- the members are at spots with their own numbers, and these go up
    have hmembers : ListsInOrder Spot.Before (fun spot e => ∃ i entry,
        t.members.entries[i]? = some entry ∧ spot = .member i ∧
          entry.2.HasMemberError types.get? name entry.1 e)
        (t.members.entries.flatMap (types.memberErrors name)) := by
      refine .flatMap_zipIdx (fun i entry => listsInOrder_memberErrors ..) ?_
      rintro i j _ _ hij _ _ _ _ ⟨rfl, -⟩ ⟨rfl, -⟩
      exact List.Lex.rel hij
    refine hmembers.congr fun spot e => ⟨?_, fun he => ?_⟩
    · rintro ⟨i, ⟨member, r⟩, hr, rfl, he⟩
      exact .union hr he
    · cases he with
      | union hr he => exact ⟨_, _, hr, rfl, he⟩
  | enum t =>
    rw [typeErrors]
    simp only
    split
    -- a single error, if there are no values
    next hvalues =>
      refine .singleton (k := .values) fun spot e => ⟨fun he => ?_, ?_⟩
      · cases he with
        | enum _ => exact ⟨rfl, rfl⟩
      · rintro ⟨rfl, rfl⟩
        exact .enum hvalues
    next hvalues =>
      refine .nil fun spot e he => ?_
      cases he with
      | enum ht => exact hvalues ht
  | inputObject t =>
    have hfields : ListsInOrder Spot.Before (fun spot e => ∃ i entry,
        t.fields.entries[i]? = some entry ∧ spot = .inputField i ∧
          entry.2.type.HasError types.get? NamedType.isInput
            (.inputFieldOfOutputType entry.2.location name entry.1) e)
        (t.fields.entries.flatMap (types.inputFieldErrors name)) := by
      refine .flatMap_zipIdx (fun i entry => listsInOrder_useErrors ..) ?_
      rintro i j _ _ hij _ _ _ _ ⟨rfl, -⟩ ⟨rfl, -⟩
      exact List.Lex.rel hij
    refine hfields.congr fun spot e => ⟨?_, fun he => ?_⟩
    · rintro ⟨i, ⟨field, f⟩, hf, rfl, he⟩
      exact .inputObject hf he
    · cases he with
      | inputObject hf he => exact ⟨_, _, hf, rfl, he⟩

/-- The types of a map are gone over in the order of their names, no two of which are the same. -/
theorem pairwise_sortedEntries (types : TypeMap) :
    types.sortedEntries.Pairwise fun a b => a.1 < b.1 := by
  have hperm : types.sortedEntries.Perm types.entries := List.mergeSort_perm _ _
  have hnodup : (types.sortedEntries.map Prod.fst).Nodup :=
    (hperm.map Prod.fst).nodup_iff.2 types.nodup_keys
  have hsorted : types.sortedEntries.Pairwise fun a b => decide (a.1 ≤ b.1) = true := by
    refine List.pairwise_mergeSort (fun a b c hab hbc => ?_) (fun a b => ?_) _
    · exact decide_eq_true ((of_decide_eq_true hab).trans (of_decide_eq_true hbc))
    · rw [Bool.or_eq_true, decide_eq_true_eq, decide_eq_true_eq]
      exact le_total a.1 b.1
  refine (hsorted.and (List.pairwise_map.1 hnodup)).imp fun ⟨hle, hne⟩ => ?_
  exact lt_of_le_of_ne (of_decide_eq_true hle) hne

/-- The check of a map of types lists all that is wrong with the types. -/
theorem listsInOrder_referenceErrors (types : TypeMap) :
    ListsInOrder SpotBefore types.ErrorAt types.referenceErrors := by
  have htypes : ListsInOrder SpotBefore (fun place e => ∃ entry ∈ types.sortedEntries,
      ∃ spot, (entry.1, spot) = place ∧ entry.2.ErrorAt types.get? entry.1 spot e)
      types.referenceErrors := by
    refine .flatMap (fun entry _ =>
      (listsInOrder_typeErrors entry.1 entry.2).map (Prod.mk entry.1) fun _ _ h => .inr ⟨rfl, h⟩) ?_
    refine types.pairwise_sortedEntries.imp ?_
    rintro a b hab _ _ _ _ ⟨_, rfl, -⟩ ⟨_, rfl, -⟩
    exact .inl (utf8Bytes_lt_of_lt hab)
  refine htypes.congr fun place e => ⟨?_, ?_⟩
  · rintro ⟨⟨name, t⟩, hmem, spot, rfl, he⟩
    exact ⟨t, OrderedMap.get?_eq_some_iff.2 (List.mem_mergeSort.1 hmem), he⟩
  · rintro ⟨t, hget, he⟩
    have hmem : (place.1, t) ∈ types.entries := OrderedMap.get?_eq_some_iff.1 hget
    exact ⟨(place.1, t), List.mem_mergeSort.2 hmem, place.2, rfl, he⟩

/-- What is wrong with the types of a map does not depend on the order of its entries. -/
theorem referenceErrors_eq_of_perm {types types' : TypeMap}
    (h : types'.entries.Perm types.entries) : types'.referenceErrors = types.referenceErrors := by
  have hget : types'.get? = types.get? := funext fun name => OrderedMap.get?_eq_of_perm h
  have herrors : types'.ErrorAt = types.ErrorAt := by
    unfold ErrorAt
    rw [hget]
  exact (herrors ▸ listsInOrder_referenceErrors types').unique spotBefore_asymm
    (listsInOrder_referenceErrors types)

/-- A map of types as it is if nothing is wrong with it, and else the errors. -/
def checked (types : TypeMap) : Except BuildError TypeMap :=
  if types.referenceErrors = [] then .ok types else .error (.badReferences types.referenceErrors)

end TypeMap

/-- The schema of types that have been checked: its roots are found and the built-in directives
added. -/
def Builder.finished (b : Builder) (types : TypeMap) : Except BuildError Schema := do
  let some query ← resolveRoot types .query b.query | throw .noQueryType
  let mutation ← resolveRoot types .mutation b.mutation
  let subscription ← resolveRoot types .subscription b.subscription
  return ⟨types, withBuiltInDirectives b.directives, query, mutation, subscription⟩

/-- When a schema is built, the types are checked once all extensions are merged. -/
theorem Builder.build_eq_checked (b : Builder) :
    b.build = (b.addDefinitions Introspection.path Introspection.definitions >>= fun b =>
      b.orderedPending.foldlM mergePending b.types >>= fun types =>
      types.checked >>= b.finished) := by
  rw [build]
  refine bind_congr fun b => bind_congr fun types => ?_
  rw [TypeMap.checked]
  by_cases herrors : types.referenceErrors = []
  · simp only [herrors, ne_eq, not_true_eq_false, if_false, if_true]
    rfl
  · simp only [herrors, ne_eq, not_false_eq_true, if_true, if_false]
    rfl

/-- When a schema is built, the map of its types passes as it is if no reference is bad. Otherwise
there is one error for each spot of a type at which something is wrong, in the order of the spots,
whatever the order of the entries of the map. -/
theorem references_checked (types : TypeMap) :
    (∃ errors, ListsInOrder SpotBefore types.ErrorAt errors ∧
      (errors = [] ↔ ∀ place e, ¬ types.ErrorAt place e) ∧
      ∀ types' : TypeMap, types'.entries.Perm types.entries →
        types'.checked = if errors = [] then .ok types' else .error (.badReferences errors)) ∧
    ∀ b : Builder, b.build =
      (b.addDefinitions Introspection.path Introspection.definitions >>= fun b =>
        b.orderedPending.foldlM Builder.mergePending b.types >>= fun types =>
        types.checked >>= b.finished) := by
  have hlists := types.listsInOrder_referenceErrors
  refine ⟨⟨_, hlists, hlists.eq_nil_iff, fun types' hperm => ?_⟩, Builder.build_eq_checked⟩
  rw [TypeMap.checked, TypeMap.referenceErrors_eq_of_perm hperm]

namespace TwoBadTypes

/-- An object with a field of a type that is not defined, and an enum without values. -/
def entries : List (String × NamedType) :=
  [("Query", .object ⟨"Query", .builtIn, none, [],
      .ofList [("f", ⟨"f", .builtIn, none, .ofList [], .builtIn "[Missing!]"⟩)]⟩),
    ("Empty", .enum ⟨"Empty", .builtIn, none, .ofList []⟩)]

/-- A map with these types. -/
def types : TypeMap := .ofList entries

/-- A map with these types in the other order. -/
def reversed : TypeMap := .ofList entries.reverse

end TwoBadTypes

open TwoBadTypes in
/-- Two maps of the same types in different orders fail with the same errors. -/
theorem references_checked_reversed : reversed.entries.Perm types.entries ∧
    ∃ errors, errors ≠ [] ∧ types.checked = .error (.badReferences errors) ∧
      reversed.checked = .error (.badReferences errors) := by
  have hperm : reversed.entries.Perm types.entries := List.reverse_perm entries
  obtain ⟨⟨errors, -, hnil, hchecked⟩, -⟩ := references_checked types
  -- the enum has no values
  have hempty : types.ErrorAt ("Empty", .values) (.emptyEnum .builtIn "Empty") :=
    ⟨.enum ⟨"Empty", .builtIn, none, .ofList []⟩, rfl, .enum rfl⟩
  have hne : errors ≠ [] := fun h => hnil.1 h _ _ hempty
  refine ⟨hperm, errors, hne, ?_, ?_⟩
  · rw [hchecked types (.refl _), if_neg hne]
  · rw [hchecked reversed hperm, if_neg hne]

end GraphQLCheck
