import GraphQLCheck.Proofs.Schema.IntrospectionTypes
import GraphQLCheck.Proofs.Traversal.FragmentContexts

/-!
# The types in effect are of the right kinds

What is in effect on a walk is looked up in the schema, and what a schema that has been built refers
to is there. `TypeState.TakenFrom` is the invariant of the six stacks that follows from this, and
`TypeState.TakenFrom.enter` says that entering a node keeps it, whatever the node is.

The parameters of directives are not checked when a schema is built, so nothing can be said of the
input types that are in effect inside directives. `inputTypesAlong` tells for each of the input
types at which node it has come into effect.

Main statement: in every state to which a walk over a document may come, present types are output
types, present parent types have selections, and present input types that have come into effect
outside all directives are input types (`wellKinded_of_reached`).
-/

namespace GraphQLCheck

/-- Whether a type is one of those that a schema defines. -/
def Schema.Defines (s : Schema) (t : NamedType) : Prop := ∃ name, s.type? name = some t

namespace Schema

variable {s : Schema}

/-- What an annotated type resolves to is defined at its core. -/
theorem defines_of_resolve? {type : AnnotatedType} {r : TypeRef} (h : s.resolve? type = some r) :
    s.Defines r.core :=
  ⟨_, type?_core_of_resolve? h⟩

/-- What a written type stands for is defined at its core. -/
theorem defines_of_typeOfExpr? {type : TypeExpr} {r : TypeRef} (h : s.typeOfExpr? type = some r) :
    s.Defines r.core := by
  induction type generalizing r with
  | named name =>
    obtain ⟨t, ht, rfl⟩ := Option.map_eq_some_iff.1 h
    exact ⟨name, ht⟩
  | list item ih =>
    obtain ⟨r', hitem, rfl⟩ := Option.map_eq_some_iff.1 h
    have hdefines := ih hitem
    exact hdefines
  | nonNull inner ih =>
    obtain ⟨r', hinner, rfl⟩ := Option.map_eq_some_iff.1 h
    have hdefines := ih hinner
    -- the mark changes the outermost layer only
    cases r' <;> exact hdefines

/-- The root type of a kind of operation is defined. -/
theorem defines_of_rootType? {kind : OperationKind} {t : NamedType}
    (h : s.rootType? kind = some t) : s.Defines t := by
  obtain ⟨r, -, ht⟩ := Option.bind_eq_some_iff.1 h
  exact ⟨r.name, ht⟩

/-- The root type of a kind of operation is an object in a schema that is closed. -/
theorem Closed.kind_rootType? (hs : s.Closed) {kind : OperationKind} {t : NamedType}
    (h : s.rootType? kind = some t) : t.kind = .object := by
  obtain ⟨r, hr, -⟩ := Option.bind_eq_some_iff.1 h
  obtain ⟨t', ht', -⟩ := hs.roots kind r hr
  obtain rfl := Option.some.inj (h.symm.trans ht')
  rfl

end Schema

/-- A type has selections just if it is an object, an interface or a union. -/
theorem NamedType.isComposite_iff {t : NamedType} :
    t.isComposite = true ↔ t.kind = .object ∨ t.kind = .interface ∨ t.kind = .union := by
  rw [isComposite]
  cases t.kind <;> simp

/-- The head of a stack, if it is present, is one of its entries. -/
theorem some_mem_of_head?_join {α : Type} {xs : List (Option α)} {x : α}
    (h : xs.head?.join = some x) : some x ∈ xs :=
  List.mem_of_mem_head? (Option.join_eq_some_iff.1 h)

/-- What holds of all present entries of a stack holds of a new one, and of the old ones. -/
theorem forall_some_mem_cons {α : Type} {P : α → Prop} {e : Option α} {xs : List (Option α)} :
    (∀ x, some x ∈ e :: xs → P x) ↔ (∀ x, e = some x → P x) ∧ ∀ x, some x ∈ xs → P x := by
  simp only [List.mem_cons, or_imp, forall_and, eq_comm]

namespace TypeState

/-- Whether what is in effect has been taken from a schema. -/
structure TakenFrom (s : Schema) (t : TypeState) : Prop where
  types : ∀ r, some r ∈ t.types → r.isOutput = true ∧ s.Defines r.core
  parentTypes : ∀ p, some p ∈ t.parentTypes → p.isComposite = true ∧ s.Defines p
  fields : ∀ f, some f ∈ t.fields → f.ResolvesIn s
  /-- Inside a directive, the types of parameters may be of any kind. -/
  inputTypes : t.directives = [] → ∀ r, some r ∈ t.inputTypes → r.isInput = true ∧ s.Defines r.core

/-- The reference to a type that is an output type. -/
theorem outputType_eq_some_iff {t : NamedType} {r : TypeRef} :
    outputType t = some r ↔ t.isOutput = true ∧ r = .named t true := by
  rw [outputType]
  split
  next h => simp [h, eq_comm]
  next h => simp [h]

namespace TakenFrom

variable {s : Schema} {t : TypeState}

/-- Nothing is in effect at first. -/
theorem empty (s : Schema) : TypeState.empty.TakenFrom s where
  types _ h := absurd h List.not_mem_nil
  parentTypes _ h := absurd h List.not_mem_nil
  fields _ h := absurd h List.not_mem_nil
  inputTypes _ _ h := absurd h List.not_mem_nil

/-- The named type in effect is defined. -/
theorem defines_namedType? (h : t.TakenFrom s) {type : NamedType}
    (htype : t.namedType? = some type) : s.Defines type := by
  obtain ⟨r, hr, rfl⟩ := Option.map_eq_some_iff.1 htype
  exact (h.types r (some_mem_of_head?_join hr)).2

/-- An input type that is expected is one of the schema, outside all directives. -/
theorem inputType? (h : t.TakenFrom s) (hdirectives : t.directives = []) {r : TypeRef}
    (hr : t.inputType? = some r) : r.isInput = true ∧ s.Defines r.core :=
  h.inputTypes hdirectives r (some_mem_of_head?_join hr)

/-- An output type may come into effect. -/
theorem push_type (h : t.TakenFrom s) {e : Option TypeRef}
    (he : ∀ r, e = some r → r.isOutput = true ∧ s.Defines r.core) :
    ({ t with types := e :: t.types } : TypeState).TakenFrom s :=
  { h with types := forall_some_mem_cons.2 ⟨he, h.types⟩ }

/-- Outside all directives, only an input type may be expected. -/
theorem push_inputType (h : t.TakenFrom s) {e : Option TypeRef}
    (he : t.directives = [] → ∀ r, e = some r → r.isInput = true ∧ s.Defines r.core) :
    ({ t with inputTypes := e :: t.inputTypes } : TypeState).TakenFrom s :=
  { h with inputTypes := fun hdirectives =>
      forall_some_mem_cons.2 ⟨he hdirectives, h.inputTypes hdirectives⟩ }

/-- A type that has selections may become the parent type. -/
theorem push_parentType (h : t.TakenFrom s) {e : Option NamedType}
    (he : ∀ p, e = some p → p.isComposite = true ∧ s.Defines p) :
    ({ t with parentTypes := e :: t.parentTypes } : TypeState).TakenFrom s :=
  { h with parentTypes := forall_some_mem_cons.2 ⟨he, h.parentTypes⟩ }

/-- A type that an output type resolves to may come into effect. -/
private theorem of_outputIn {type : AnnotatedType} (h : type.OutputIn s) {r : TypeRef}
    (hr : s.resolve? type = some r) : r.isOutput = true ∧ s.Defines r.core := by
  obtain ⟨r', hr', houtput⟩ := h
  obtain rfl := Option.some.inj (hr.symm.trans hr')
  exact ⟨houtput, Schema.defines_of_resolve? hr⟩

/-- A type that an input type resolves to may be expected. -/
private theorem of_inputIn {type : AnnotatedType} (h : type.InputIn s) {r : TypeRef}
    (hr : s.resolve? type = some r) : r.isInput = true ∧ s.Defines r.core := by
  obtain ⟨r', hr', hinput⟩ := h
  obtain rfl := Option.some.inj (hr.symm.trans hr')
  exact ⟨hinput, Schema.defines_of_resolve? hr⟩

/-- A type condition brings an output type into effect, or none. -/
private theorem of_outputType {type : Option NamedType} {r : TypeRef}
    (htype : ∀ t, type = some t → s.Defines t) (hr : type.bind outputType = some r) :
    r.isOutput = true ∧ s.Defines r.core := by
  obtain ⟨t, ht, hr⟩ := Option.bind_eq_some_iff.1 hr
  obtain ⟨houtput, rfl⟩ := outputType_eq_some_iff.1 hr
  exact ⟨houtput, htype t ht⟩

/-- The field that is found under a parent type resolves. -/
theorem resolvesIn_of_field? (hs : s.Closed) (h : t.TakenFrom s) {name : String} {f : FieldDef}
    (hf : t.parentType?.bind (s.field? · name) = some f) : f.ResolvesIn s := by
  obtain ⟨parent, hparent, hf⟩ := Option.bind_eq_some_iff.1 hf
  obtain ⟨-, typeName, htypeName⟩ := h.parentTypes parent (some_mem_of_head?_join hparent)
  exact hs.lookups typeName parent htypeName name f hf

/-- Outside all directives, what is expected of an argument is an input type. -/
private theorem of_argument (h : t.TakenFrom s) (hdirectives : t.directives = []) {name : String}
    {r : TypeRef} (hr : (t.argumentDef name).bind (s.resolve? ·.type) = some r) :
    r.isInput = true ∧ s.Defines r.core := by
  obtain ⟨p, hp, hr⟩ := Option.bind_eq_some_iff.1 hr
  -- the argument is one of a field that has been found
  rw [argumentDef, hdirectives] at hp
  obtain ⟨f, hf, hp⟩ := Option.bind_eq_some_iff.1 hp
  have hresolves := h.fields f (some_mem_of_head?_join hf)
  have hmem : p ∈ f.parameters.values :=
    List.mem_map_of_mem (OrderedMap.get?_eq_some_iff.1 hp)
  exact of_inputIn (hresolves.parameters p hmem) hr

/-- What is expected of the items of a list is what is expected of the list, at the core. -/
private theorem of_itemType (h : t.TakenFrom s) (hdirectives : t.directives = []) {r : TypeRef}
    (hr : t.itemType = some r) : r.isInput = true ∧ s.Defines r.core := by
  obtain ⟨list, hlist, rfl⟩ := Option.map_eq_some_iff.1 hr
  have hinput := h.inputType? hdirectives hlist
  cases list with
  | named _ _ => exact hinput
  | list item _ => exact hinput

/-- What is expected of a field of an input object is an input type. -/
private theorem of_objectField (hs : s.Closed) (h : t.TakenFrom s) (hdirectives : t.directives = [])
    {name : String} {r : TypeRef}
    (hr : (t.inputObject?.bind (·.fields.get? name)).bind (s.resolve? ·.type) = some r) :
    r.isInput = true ∧ s.Defines r.core := by
  obtain ⟨p, hp, hr⟩ := Option.bind_eq_some_iff.1 hr
  obtain ⟨i, hi, hp⟩ := Option.bind_eq_some_iff.1 hp
  obtain ⟨type, htype, hi⟩ := Option.bind_eq_some_iff.1 hi
  obtain ⟨-, typeName, hdefined⟩ := h.inputType? hdirectives htype
  split at hi
  next i' hcore =>
    obtain rfl := Option.some.inj hi
    have hmem : p ∈ i'.fields.values := List.mem_map_of_mem (OrderedMap.get?_eq_some_iff.1 hp)
    exact of_inputIn (hs.inputFields typeName i' (hcore ▸ hdefined) p hmem) hr
  next => exact nomatch hi

/-- What is in effect inside a node has been taken from the schema if what is in effect around it
has. -/
theorem enter (hs : s.Closed) (h : t.TakenFrom s) (n : Node) : (t.enter s n).TakenFrom s := by
  cases n with
  | argument a =>
    have hpushed := h.push_inputType (e := (t.argumentDef a.name).bind (s.resolve? ·.type))
      fun hdirectives _ hr => h.of_argument hdirectives hr
    exact ⟨hpushed.types, hpushed.parentTypes, hpushed.fields, hpushed.inputTypes⟩
  | directive d =>
    exact { h with inputTypes := fun hdirectives => absurd hdirectives (List.cons_ne_nil _ _) }
  | field f =>
    have hfield : ∀ d, t.parentType?.bind (s.field? · f.name) = some d → d.ResolvesIn s :=
      fun d hd => resolvesIn_of_field? hs h hd
    have hpushed := h.push_type (e := (t.parentType?.bind (s.field? · f.name)).bind
      (s.resolve? ·.type)) fun r hr => by
        obtain ⟨d, hd, hr⟩ := Option.bind_eq_some_iff.1 hr
        exact of_outputIn (hfield d hd).type hr
    exact { hpushed with fields := forall_some_mem_cons.2 ⟨hfield, h.fields⟩ }
  | fragmentDefinition d =>
    exact h.push_type fun r hr => of_outputType (fun t ht => ⟨d.typeCondition, ht⟩) hr
  | inlineFragment f =>
    refine h.push_type fun r hr => of_outputType (fun type htype => ?_) hr
    cases hcondition : f.typeCondition with
    | some name => rw [hcondition] at htype; exact ⟨name, htype⟩
    | none => rw [hcondition] at htype; exact h.defines_namedType? htype
  | listValue items =>
    exact h.push_inputType fun hdirectives _ hr => h.of_itemType hdirectives hr
  | objectField f =>
    exact h.push_inputType fun hdirectives _ hr => h.of_objectField hs hdirectives hr
  | operationDefinition d =>
    -- a root is an object, so it is composite and may be the type of an output
    have hroot {root : NamedType} (hroot : s.rootType? d.kind = some root) :
        root.isComposite = true ∧ root.isOutput = true ∧ s.Defines root := by
      have hkind := hs.kind_rootType? hroot
      refine ⟨NamedType.isComposite_iff.2 (.inl hkind), ?_, Schema.defines_of_rootType? hroot⟩
      rw [NamedType.isOutput, hkind]
      rfl
    refine (h.push_parentType fun p hp => ⟨(hroot hp).1, (hroot hp).2.2⟩).push_type fun r hr => ?_
    obtain ⟨root, hfound, rfl⟩ := Option.map_eq_some_iff.1 hr
    exact (hroot hfound).2
  | selectionSet set =>
    refine h.push_parentType fun p hp => ?_
    obtain ⟨hp, hcomposite⟩ := Option.filter_eq_some_iff.1 hp
    exact ⟨hcomposite, h.defines_namedType? hp⟩
  | variableDefinition d =>
    refine h.push_inputType fun _ r hr => ?_
    obtain ⟨hr, hinput⟩ := Option.filter_eq_some_iff.1 hr
    exact ⟨hinput, Schema.defines_of_typeOfExpr? hr⟩
  | _ => exact h

end TakenFrom

end TypeState

/-- What is in effect at the end of a chain has been taken from the schema. -/
theorem takenFrom_typesAlong {s : Schema} (hs : s.Closed) (chain : List Node) :
    (typesAlong s chain).TakenFrom s := by
  induction chain with
  | nil => exact .empty s
  | cons n chain ih => exact ih.enter hs n

section Reached

variable {s : Schema} {doc : Document}

/-- The states to which a walk over a document may come, each with the chain of nodes that have been
entered and not yet left, innermost first. Nodes are entered where they may follow, and left in
reverse. -/
inductive TypeState.Reached (s : Schema) (doc : Document) : List Node → TypeState → Prop
  | start : Reached s doc [] .empty
  | enter {chain : List Node} {n : Node} {t : TypeState} (h : Reached s doc chain t)
      (hn : Follows doc chain n) : Reached s doc (n :: chain) (t.enter s n)
  | leave {chain : List Node} {n : Node} {t : TypeState} (h : Reached s doc (n :: chain) t) :
      Reached s doc chain (t.leave n)

/-- A state that is reached is the one along the way to where it is reached. -/
theorem TypeState.Reached.eq_typesAlong {chain : List Node} {t : TypeState}
    (h : Reached s doc chain t) : Way doc [] chain ∧ t = typesAlong s chain := by
  induction h with
  | start => exact ⟨.here, rfl⟩
  | enter _ hn ih =>
    obtain ⟨hway, rfl⟩ := ih
    exact ⟨.step hway hn, rfl⟩
  | leave _ ih =>
    obtain ⟨hway, rfl⟩ := ih
    -- leaving the node undoes what entering it has pushed
    exact ⟨hway.of_cons.1, TypeState.leave_enter ..⟩

/-- The types along a way are reached. -/
theorem TypeState.reached_of_way {chain : List Node} (h : Way doc [] chain) :
    Reached s doc chain (typesAlong s chain) := by
  induction h with
  | here => exact .start
  | step _ hn ih => exact ih.enter hn

/-- Whether entering a node brings an input type into effect. -/
def Node.setsInputType : Node → Bool
  | argument _ | listValue _ | objectField _ | variableDefinition _ => true
  | _ => false

/-- The input types in effect at the end of a chain, innermost first, each with the part of the
chain that ends at the node at which it has come into effect. -/
def inputTypesAlong (s : Schema) : List Node → List (List Node × Option TypeRef)
  | [] => []
  | n :: chain =>
    if n.setsInputType then
      (n :: chain, (typesAlong s (n :: chain)).inputType?) :: inputTypesAlong s chain
    else inputTypesAlong s chain

/-- These are the entries of the stack of input types. -/
theorem map_snd_inputTypesAlong (s : Schema) (chain : List Node) :
    (inputTypesAlong s chain).map Prod.snd = (typesAlong s chain).inputTypes := by
  induction chain with
  | nil => rfl
  | cons n chain ih =>
    rw [inputTypesAlong]
    split
    next hn =>
      rw [List.map_cons, ih]
      cases n with
      | argument _ | listValue _ | objectField _ | variableDefinition _ => rfl
      | _ => exact nomatch hn
    next hn =>
      rw [ih]
      cases n with
      | argument _ | listValue _ | objectField _ | variableDefinition _ => exact absurd rfl hn
      | _ => rfl

/-- An input type has come into effect at the end of a part of the chain. -/
theorem inputType?_of_mem_inputTypesAlong {chain origin : List Node} {e : Option TypeRef}
    (h : (origin, e) ∈ inputTypesAlong s chain) : e = (typesAlong s origin).inputType? := by
  induction chain with
  | nil => exact absurd h List.not_mem_nil
  | cons n chain ih =>
    rw [inputTypesAlong] at h
    split at h
    · rcases List.mem_cons.1 h with heq | h
      · obtain ⟨rfl, rfl⟩ := Prod.mk.inj heq
        rfl
      · exact ih h
    · exact ih h

/-- Where no directive is being visited, none is in effect. -/
theorem directives_typesAlong_eq_nil {chain : List Node} (h : ∀ d, .directive d ∉ chain) :
    (typesAlong s chain).directives = [] := by
  induction chain with
  | nil => rfl
  | cons n chain ih =>
    have hchain : (typesAlong s chain).directives = [] :=
      ih fun d hd => h d (List.mem_cons_of_mem n hd)
    cases n with
    | directive d => exact absurd List.mem_cons_self (h d)
    | _ => exact hchain

/-- Whether what is in effect at the end of a chain of nodes is of the kinds that it has to be of.
-/
structure TypeState.WellKinded (s : Schema) (chain : List Node) (t : TypeState) : Prop where
  types : ∀ r, some r ∈ t.types → r.isOutput = true
  parentTypes : ∀ p, some p ∈ t.parentTypes →
    p.kind = .object ∨ p.kind = .interface ∨ p.kind = .union
  /-- Every entry of the stack of input types has come into effect at some node. -/
  origins : (inputTypesAlong s chain).map Prod.snd = t.inputTypes
  /-- If no directive is around that node, then a type that is present is an input type. -/
  inputTypes : ∀ origin r, (origin, some r) ∈ inputTypesAlong s chain →
    (∀ d, .directive d ∉ origin) → r.isInput = true
  /-- A field is looked up under its parent type. The type of one that is found is present: it is
  what the definition resolves to. -/
  field : ∀ f outer, chain = .field f :: outer →
    t.field? = t.parentType?.bind (s.field? · f.name) ∧
      ∀ d, t.field? = some d → ∃ r, t.types.head? = some (some r) ∧ s.resolve? d.type = some r
  /-- An argument of a field is looked up among the parameters of the field. The type of one that is
  found is present. -/
  argument : ∀ a f outer, chain = .argument a :: .field f :: outer →
    t.argument? = t.field?.bind (·.parameters.get? a.name) ∧
      ∀ p, t.argument? = some p →
        ∃ r, t.inputTypes.head? = some (some r) ∧ s.resolve? p.type = some r

/-- In a closed schema, what is in effect at the end of a way is of the right kinds. -/
theorem wellKinded_typesAlong (hs : s.Closed) {chain : List Node} (hway : Way doc [] chain) :
    (typesAlong s chain).WellKinded s chain where
  types r hr := ((takenFrom_typesAlong hs chain).types r hr).1
  parentTypes p hp :=
    NamedType.isComposite_iff.1 ((takenFrom_typesAlong hs chain).parentTypes p hp).1
  origins := map_snd_inputTypesAlong s chain
  inputTypes origin r hr hdirective := by
    have hinput : (typesAlong s origin).inputType? = some r :=
      (inputType?_of_mem_inputTypesAlong hr).symm
    have hdirectives := directives_typesAlong_eq_nil (s := s) hdirective
    exact ((takenFrom_typesAlong hs origin).inputType? hdirectives hinput).1
  field := by
    rintro f outer rfl
    refine ⟨rfl, fun d hd => ?_⟩
    have hfound : (typesAlong s outer).parentType?.bind (s.field? · f.name) = some d := hd
    obtain ⟨r, hr, -⟩ := ((takenFrom_typesAlong hs outer).resolvesIn_of_field? hs hfound).type
    refine ⟨r, ?_, hr⟩
    show some (((typesAlong s outer).parentType?.bind (s.field? · f.name)).bind
      (s.resolve? ·.type)) = some (some r)
    rw [hfound, Option.bind_some, hr]
  argument := by
    rintro a f outer rfl
    -- a field is not inside a directive, so its parameters are looked at
    obtain ⟨-, hdirectives, -⟩ := typesAlong_of_spansSelections s hway.of_cons.1 rfl
    have hargument : (typesAlong s (.field f :: outer)).argumentDef a.name =
        (typesAlong s (.field f :: outer)).field?.bind (·.parameters.get? a.name) := by
      rw [TypeState.argumentDef, hdirectives]
    refine ⟨hargument, fun p hp => ?_⟩
    have hp : (typesAlong s (.field f :: outer)).argumentDef a.name = some p := hp
    obtain ⟨d, hd, hget⟩ := Option.bind_eq_some_iff.1 (hargument.symm.trans hp)
    have hresolves := (takenFrom_typesAlong hs (.field f :: outer)).fields d
      (some_mem_of_head?_join hd)
    have hmem : p ∈ d.parameters.values := List.mem_map_of_mem (OrderedMap.get?_eq_some_iff.1 hget)
    obtain ⟨r, hr, -⟩ := hresolves.parameters p hmem
    refine ⟨r, ?_, hr⟩
    show some (((typesAlong s (.field f :: outer)).argumentDef a.name).bind (s.resolve? ·.type)) =
      some (some r)
    rw [hp, Option.bind_some, hr]

end Reached

/-- Whatever sources a schema is built of, in every state to which a walk over a document may come,
what is in effect is of the right kinds, and whatever a visitor does, with or without visiting
fragments at their spreads, it is called in such states only. -/
theorem wellKinded_of_reached (sources : List (Option Path × String)) {s : Schema}
    (hbuild : (sources.foldlM (fun b source => b.load source.1 source.2) Builder.empty >>=
      Builder.build) = .ok s) (doc : Document) :
    (∀ chain t, TypeState.Reached s doc chain t → t.WellKinded s chain) ∧
      ∀ (σ : Type) (v : Visitor σ) (memory : σ),
        ∀ call ∈ v.callsOver s doc (.document doc) memory,
          TypeState.Reached s doc call.path call.context.types := by
  obtain ⟨ds, b, hb, hbuild, -⟩ := exists_loaded_of_build hbuild
  have hclosed : s.Closed := (Schema.MadeOf.of_build hb hbuild).closed
  refine ⟨fun chain t h => ?_, fun σ v memory call hcall => ?_⟩
  · obtain ⟨hway, rfl⟩ := h.eq_typesAlong
    exact wellKinded_typesAlong hclosed hway
  · have hat : call.context.At s doc [] call.node :=
      at_of_mem_callsOver (.step .here .document) hcall
    have htypes : call.context.types = typesAlong s call.path := hat.types
    rw [htypes]
    exact TypeState.reached_of_way hat.way

namespace ObjectParameter

/-- The path of the source below. -/
def path : Path := ⟨"filters.graphql"⟩

/-- A source with a field that takes a list of input objects, and a directive that takes an object,
which is no input type. -/
def source : String :=
  "directive @of(query: Query) on FIELD input Filter \x7b name: String \x7d
type Query \x7b find(by: [Filter!]): Query \x7d"

/-- A field that is given a list of input objects, and a directive with an argument. -/
def field : Field :=
  { position := .start
    aliasName := none
    name := "find"
    arguments := [⟨"by", .list [.object [⟨"name", .string "x"⟩]]⟩]
    directives := [⟨.start, "of", [⟨"query", .list [.int 1]⟩]⟩]
    selectionSet := ⟨.start, .start, []⟩ }

/-- A document that selects this field. -/
def document : Document :=
  ⟨[.operation ⟨.start, .query, none, [⟨.start, "v", .named "Filter", none⟩], [],
    ⟨.start, .start, [.field field]⟩⟩]⟩

end ObjectParameter

/-- What is in effect is of the right kinds in a document that uses a directive with a parameter
that is of no input type. -/
theorem wellKinded_of_reached_objectParameter :
    ∃ s, ([(some ObjectParameter.path, ObjectParameter.source)].foldlM
        (fun b source => b.load source.1 source.2) Builder.empty >>= Builder.build) = .ok s ∧
      (∀ chain t, TypeState.Reached s ObjectParameter.document chain t → t.WellKinded s chain) ∧
      ∀ (σ : Type) (v : Visitor σ) (memory : σ),
        ∀ call ∈ v.callsOver s ObjectParameter.document (.document ObjectParameter.document) memory,
          TypeState.Reached s ObjectParameter.document call.path call.context.types := by
  have hpath : ObjectParameter.path.same Introspection.path = false := by decide +kernel
  have hsource : makesUpSchema ObjectParameter.path ObjectParameter.source = true := by
    decide +kernel
  obtain ⟨s, hbuild⟩ := exists_build_of_source hpath hsource
  exact ⟨s, hbuild, wellKinded_of_reached _ hbuild ObjectParameter.document⟩

end GraphQLCheck
