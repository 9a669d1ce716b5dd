import GraphQLCheck.IntrospectionQuery
import GraphQLCheck.Language.Reading.Document
import GraphQLCheck.Proofs.Rules.Places
import GraphQLCheck.Proofs.Rules.UniqueArguments
import GraphQLCheck.Proofs.Schema.IntrospectionTypes
import GraphQLCheck.Proofs.Schema.Sources

/-!
# Every schema can be introspected

A document about nothing but the introspection types can be checked without a schema: `fits`
follows it with what is `Known` of the types in effect. In a schema that offers the introspection
types, what is known describes the types that a walk has in effect (`Known.Describes.enter`), and
so the specified rules find nothing in a document that fits (`validate_eq_nil_of_fits`).

Main statement: the introspection query is valid in every schema that has been built
(`introspectionQuery_valid`).
-/

namespace GraphQLCheck

/-- What is known of the types in effect at a node, in whatever schema. -/
structure Known where
  /-- Where fields are being selected. -/
  parent : Option Place
  /-- Where fields could be selected of what is being visited. -/
  type : Option Place
  /-- The field being visited. -/
  field : Option KnownField

namespace Known

/-- Outside every definition nothing is known. -/
def start : Known := ⟨none, none, none⟩

/-- What is known inside a node. -/
def enter (k : Known) : Node → Known
  | .operationDefinition _ => ⟨some .queryRoot, some .queryRoot, none⟩
  -- a fragment may be spread anywhere, so nothing from outside is known in it
  | .fragmentDefinition d => ⟨none, some (.type d.typeCondition), none⟩
  | .selectionSet _ => { k with parent := k.type }
  | .field f =>
    let field := k.parent.bind (·.field? f.name)
    { k with field, type := field.map (.type ·.type) }
  | _ => k

/-- Whether a node can be followed, and stands where something is known of it: an operation is a
query, a selection is made on an object, a field and its arguments are known, and a fragment that
is spread is defined. Directives, variables and inline fragments are not followed. -/
def admits (doc : Document) (k : Known) : Node → Bool
  | .argument a => k.field.any (a.name ∈ ·.arguments)
  | .field f =>
    (k.parent.bind (·.field? f.name)).isSome && decide (f.arguments.map Argument.name).Nodup
  | .fragmentDefinition d => (Place.type d.typeCondition).isObject
  | .fragmentSpread spread => (doc.fragment? spread.name).isSome
  | .namedType name => (Place.type name).isObject
  | .operationDefinition d => d.kind = .query
  | .selectionSet _ => k.type.any Place.isObject
  | .directive _ | .inlineFragment _ | .variable _ | .variableDefinition _ => false
  | _ => true

/-- Whether what is known is so: no directive is being visited, and the types in effect are those
at the places that are known. -/
structure Describes (k : Known) (s : Schema) (t : TypeState) : Prop where
  directives : t.directives = []
  parent : ∀ place, k.parent = some place →
    ∃ type, s.typeAt? place = some type ∧ t.parentType? = some type
  type : ∀ place, k.type = some place →
    ∃ type, s.typeAt? place = some type ∧ t.namedType? = some type
  field : ∀ known, k.field = some known →
    ∃ f, t.field? = some f ∧ ∀ a ∈ known.arguments, a ∈ f.parameters.keys

/-- Nothing is known at first, and this is so wherever no directive is being visited. -/
theorem describes_start {s : Schema} {t : TypeState} (h : t.directives = []) :
    start.Describes s t where
  directives := h
  parent := nofun
  type := nofun
  field := nofun

namespace Describes

variable {s : Schema} {doc : Document} {k : Known} {t : TypeState}

/-- The type at the root of queries is in effect in a query. -/
private theorem enter_query (hs : s.Offers) (h : k.Describes s t) {d : OperationDefinition}
    (hkind : d.kind = .query) :
    (k.enter (.operationDefinition d)).Describes s (t.enter s (.operationDefinition d)) := by
  obtain ⟨root, hroot, -⟩ := hs.object .queryRoot rfl
  have hkindRoot : s.rootType? d.kind = some root := hkind ▸ hroot
  refine ⟨h.directives, fun place hplace => ?_, fun place hplace => ?_, fun known hknown => ?_⟩
  · obtain rfl := Option.some.inj hplace
    exact ⟨root, hroot, hkindRoot⟩
  · obtain rfl := Option.some.inj hplace
    refine ⟨root, hroot, ?_⟩
    show (Option.map _ (s.rootType? d.kind)).map TypeRef.core = some root
    rw [hkindRoot]
    rfl
  · cases hknown

/-- The type that a fragment is about is in effect in it. -/
private theorem enter_fragment (hs : s.Offers) (h : k.Describes s t) {d : FragmentDefinition}
    (hobject : (Place.type d.typeCondition).isObject = true) :
    (k.enter (.fragmentDefinition d)).Describes s (t.enter s (.fragmentDefinition d)) := by
  obtain ⟨type, htype, hkind⟩ := hs.object _ hobject
  have hfound : s.type? d.typeCondition = some type := htype
  have houtput : TypeState.outputType type = some (.named type true) := by
    rw [TypeState.outputType, NamedType.isOutput, hkind]
    rfl
  refine ⟨h.directives, fun place hplace => ?_, fun place hplace => ?_, fun known hknown => ?_⟩
  · cases hplace
  · obtain rfl := Option.some.inj hplace
    refine ⟨type, htype, ?_⟩
    show ((s.type? d.typeCondition).bind TypeState.outputType).map TypeRef.core = some type
    rw [hfound, Option.bind_some, houtput]
    rfl
  · cases hknown

/-- Fields are selected on the type in effect. -/
private theorem enter_selectionSet (hs : s.Offers) (h : k.Describes s t) {selected : SelectionSet}
    (hobject : k.type.any Place.isObject = true) :
    (k.enter (.selectionSet selected)).Describes s (t.enter s (.selectionSet selected)) := by
  refine ⟨h.directives, fun place hplace => ?_, h.type, h.field⟩
  have hknown : k.type = some place := hplace
  rw [hknown] at hobject
  obtain ⟨type, htype, hkind⟩ := hs.object place hobject
  obtain ⟨type', htype', hnamed⟩ := h.type place hknown
  obtain rfl := Option.some.inj (htype.symm.trans htype')
  have hcomposite : type.isComposite = true := by rw [NamedType.isComposite, hkind]
  refine ⟨type, htype, ?_⟩
  show t.namedType?.filter NamedType.isComposite = some type
  rw [hnamed, Option.filter_some, if_pos hcomposite]

/-- A field that is known is found, and its type is in effect in it. -/
private theorem enter_field (hs : s.Offers) (h : k.Describes s t) {f : Field}
    (hfield : (k.parent.bind (·.field? f.name)).isSome = true) :
    (k.enter (.field f)).Describes s (t.enter s (.field f)) := by
  -- what is listed at the place that is known is found in the type that is there
  obtain ⟨known, hknown⟩ := Option.isSome_iff_exists.1 hfield
  obtain ⟨place, hplace, hlisted⟩ := Option.bind_eq_some_iff.1 hknown
  obtain ⟨parent, htype, hparent⟩ := h.parent place hplace
  obtain ⟨d, r, hd, hr, hcore, harguments⟩ := hs.field place f.name known hlisted parent htype
  have hfound : t.parentType?.bind (s.field? · f.name) = some d := by
    rw [hparent, Option.bind_some, hd]
  refine ⟨h.directives, h.parent, fun inner hinner => ?_, fun known' hknown' => ?_⟩
  · have hinner : (k.parent.bind (·.field? f.name)).map (Place.type ·.type) = some inner := hinner
    rw [hknown] at hinner
    obtain rfl := Option.some.inj hinner
    refine ⟨r.core, hcore, ?_⟩
    show ((t.parentType?.bind (s.field? · f.name)).bind (s.resolve? ·.type)).map TypeRef.core = _
    rw [hfound, Option.bind_some, hr]
    rfl
  · obtain rfl := Option.some.inj (hknown.symm.trans hknown')
    exact ⟨d, hfound, harguments⟩

/-- If a node can be followed, what is known describes the types in effect inside it as well. -/
theorem enter (hs : s.Offers) (h : k.Describes s t) {n : Node} (hn : k.admits doc n = true) :
    (k.enter n).Describes s (t.enter s n) := by
  cases n with
  | operationDefinition d => exact h.enter_query hs (of_decide_eq_true hn)
  | fragmentDefinition d => exact h.enter_fragment hs hn
  | selectionSet selected => exact h.enter_selectionSet hs hn
  | field f => exact h.enter_field hs (Bool.and_eq_true_iff.1 hn).1
  | directive _ | inlineFragment _ | «variable» _ | variableDefinition _ => exact nomatch hn
  | _ => exact ⟨h.directives, h.parent, h.type, h.field⟩

/-- The definition of a field that is known is in effect in it. -/
theorem exists_field (hs : s.Offers) (h : k.Describes s t) {f : Field}
    (hn : k.admits doc (.field f) = true) : ∃ d, (t.enter s (.field f)).field? = some d := by
  obtain ⟨known, hknown⟩ := Option.isSome_iff_exists.1 (Bool.and_eq_true_iff.1 hn).1
  obtain ⟨d, hd, -⟩ := (h.enter hs hn).field known hknown
  exact ⟨d, hd⟩

/-- The definition of an argument that is known is in effect in it. -/
theorem exists_argument (h : k.Describes s t) {a : Argument}
    (hn : k.admits doc (.argument a) = true) :
    ∃ d, (t.enter s (.argument a)).argument? = some d := by
  obtain ⟨known, hknown, hlisted⟩ := Option.any_eq_true _ _ |>.1 hn
  obtain ⟨f, hf, harguments⟩ := h.field known hknown
  have hkey : a.name ∈ f.parameters.keys := harguments a.name (of_decide_eq_true hlisted)
  obtain ⟨d, hd⟩ := OrderedMap.exists_get?_of_mem_keys hkey
  refine ⟨d, ?_⟩
  show t.argumentDef a.name = some d
  rw [TypeState.argumentDef, h.directives, hf]
  exact hd

end Describes

/-- Whether the part of a document at a node can be followed, and is no deeper than a bound. -/
def fits (doc : Document) : Nat → Known → Node → Bool
  | 0, _, _ => false
  | depth + 1, k, n => k.admits doc n && n.children.all (fits doc depth (k.enter n))

/-- What fits can be followed, and so can its children. -/
theorem admits_of_fits {doc : Document} {depth : Nat} {k : Known} {n : Node}
    (h : k.fits doc depth n = true) : k.admits doc n = true ∧
      ∃ bound, ∀ c ∈ n.children, (k.enter n).fits doc bound c = true := by
  cases depth with
  | zero => exact nomatch h
  | succ depth =>
    obtain ⟨hadmits, hchildren⟩ := Bool.and_eq_true_iff.1 h
    exact ⟨hadmits, depth, List.all_eq_true.1 hchildren⟩

end Known

section Fitting

variable {s : Schema} {doc : Document} {depth : Nat} (hs : s.Offers)
  (hdoc : Known.start.fits doc depth (.document doc) = true)

include hs hdoc

/-- On the ways from a document that fits, what is known describes the types along the way. -/
theorem exists_fits_of_way {chain : List Node} {n : Node} (h : Way doc [] (n :: chain)) :
    ∃ (bound : Nat) (k : Known), k.fits doc bound n = true ∧
      k.Describes s (typesAlong s chain) := by
  induction chain generalizing n with
  | nil =>
    obtain ⟨-, hfollows⟩ := h.of_cons
    cases hfollows with
    | document => exact ⟨depth, .start, hdoc, Known.describes_start rfl⟩
  | cons m chain ih =>
    obtain ⟨hway, hfollows⟩ := h.of_cons
    obtain ⟨_, k, hm, hdescribes⟩ := ih hway
    obtain ⟨hadmits, bound, hchildren⟩ := Known.admits_of_fits hm
    have hinside := hdescribes.enter hs hadmits
    cases hfollows with
    | child hc => exact ⟨bound, k.enter m, hchildren n hc, hinside⟩
    | fragment hd =>
      -- the definition fits where it stands, with nothing known
      obtain ⟨-, bound, hdefinitions⟩ := Known.admits_of_fits hdoc
      have hmem := Node.fragmentDefinition_mem_of_fragment? hd
      exact ⟨bound, .start, hdefinitions _ hmem, Known.describes_start hinside.directives⟩

/-- Every node at which a rule is called in a document that fits can be followed. -/
theorem Context.At.exists_known {ctx : Context} {n : Node}
    (hat : ctx.At s doc [] n) : ∃ k : Known, k.admits doc n = true ∧
      k.Describes s (typesAlong s ctx.ancestors) := by
  obtain ⟨_, k, hn, hdescribes⟩ := exists_fits_of_way hs hdoc hat.way
  exact ⟨k, (Known.admits_of_fits hn).1, hdescribes⟩

/-- The types that are named are known. -/
theorem knownTypeNames_errors_eq_nil :
    (Rules.knownTypeNames.outcome s doc).errors = [] := by
  refine Rule.errors_ofCheck_eq_nil fun ctx n hat => ?_
  obtain ⟨k, hn, -⟩ := hat.exists_known hs hdoc
  cases n with
  | namedType name =>
    obtain ⟨type, htype, -⟩ := hs.object (.type name) hn
    have hfound : ctx.schema.type? name = some type := hat.schema ▸ htype
    simp only [hfound, Option.isNone_some, Bool.false_eq_true, if_false]
  | _ => rfl

/-- There are no variables. -/
theorem variablesAreInputTypes_errors_eq_nil :
    (Rules.variablesAreInputTypes.outcome s doc).errors = [] := by
  refine Rule.errors_ofCheck_eq_nil fun ctx n hat => ?_
  obtain ⟨k, hn, -⟩ := hat.exists_known hs hdoc
  cases n with
  | variableDefinition d => exact nomatch hn
  | _ => rfl

/-- The fields that are selected are found. -/
theorem fieldsOnCorrectType_errors_eq_nil :
    (Rules.fieldsOnCorrectType.outcome s doc).errors = [] := by
  refine Rule.errors_ofCheck_eq_nil fun ctx n hat => ?_
  obtain ⟨k, hn, hdescribes⟩ := hat.exists_known hs hdoc
  cases n with
  | field f =>
    obtain ⟨d, hd⟩ := hdescribes.exists_field hs hn
    have hfound : ctx.types.field? = some d := hat.types ▸ hd
    simp only [hfound]
    cases ctx.types.parentType? <;> rfl
  | _ => rfl

/-- The fragments that are spread are defined. -/
theorem knownFragmentNames_errors_eq_nil :
    (Rules.knownFragmentNames.outcome s doc).errors = [] := by
  refine Rule.errors_ofCheck_eq_nil fun ctx n hat => ?_
  obtain ⟨k, hn, -⟩ := hat.exists_known hs hdoc
  cases n with
  | fragmentSpread spread =>
    obtain ⟨d, hd⟩ := Option.isSome_iff_exists.1 hn
    have hfound : ctx.document.fragment? spread.name = some d := hat.document ▸ hd
    simp only [hfound, Option.isNone_some, Bool.false_eq_true, if_false]
  | _ => rfl

/-- No variables are used. -/
theorem noUndefinedVariables_errors_eq_nil :
    (Rules.noUndefinedVariables.outcome s doc).errors = [] := by
  refine Rule.errors_eq_nil fun ctx n m hat => ⟨?_, rfl⟩
  obtain ⟨k, hn, -⟩ := hat.exists_known hs hdoc
  cases n with
  | «variable» name => exact nomatch hn
  | _ => rfl

/-- The arguments that are given are found. -/
theorem knownArgumentNames_errors_eq_nil :
    (Rules.knownArgumentNames.outcome s doc).errors = [] := by
  refine Rule.errors_eq_nil fun ctx n owners hat => ⟨?_, rfl⟩
  obtain ⟨k, hn, hdescribes⟩ := hat.exists_known hs hdoc
  cases n with
  | argument a =>
    obtain ⟨d, hd⟩ := hdescribes.exists_argument hn
    have hfound : ctx.types.argument? = some d := hat.types ▸ hd
    show (Rules.KnownArgumentNames.enter ctx (.argument a) owners).2.errors = []
    simp only [Rules.KnownArgumentNames.enter, hfound, Option.isNone_some, Bool.false_eq_true,
      if_false, Response.errors]
  | _ => rfl

/-- In a schema that offers the introspection types, the specified rules find nothing in a document
that fits. -/
theorem validate_eq_nil_of_fits : s.validate doc = [] := by
  have hgiven (chain : List Node) (n : Node) (hway : Way doc [] (n :: chain)) :
      (n.givenArguments.map Argument.name).Nodup := by
    obtain ⟨_, k, hn, -⟩ := exists_fits_of_way hs hdoc hway
    obtain ⟨hn, -⟩ := Known.admits_of_fits hn
    -- only a field can be given arguments, since directives are not followed
    cases n with
    | field f => exact of_decide_eq_true (Bool.and_eq_true_iff.1 hn).2
    | directive d => exact nomatch hn
    | _ => exact List.nodup_nil
  rw [Schema.validate, s.validateWithRules_eq_flatMap, List.flatMap_eq_nil_iff]
  intro rule hrule
  simp only [specifiedRules, List.mem_cons, List.not_mem_nil, or_false] at hrule
  rcases hrule with rfl | rfl | rfl | rfl | rfl | rfl | rfl
  · exact knownTypeNames_errors_eq_nil hs hdoc
  · exact variablesAreInputTypes_errors_eq_nil hs hdoc
  · exact fieldsOnCorrectType_errors_eq_nil hs hdoc
  · exact knownFragmentNames_errors_eq_nil hs hdoc
  · exact noUndefinedVariables_errors_eq_nil hs hdoc
  · exact knownArgumentNames_errors_eq_nil hs hdoc
  · exact uniqueArgumentNames_errors_eq_nil hgiven

end Fitting

/-- The characters of the introspection query, line by line. -/
theorem toList_introspectionQuery : introspectionQuery.toList =
    '\n' :: (['\n'].intercalate (introspectionQueryLines.map String.toList)) ++ ['\n'] := by
  rw [introspectionQuery, String.toList_append, String.toList_append, String.toList_intercalate]
  rfl

/-- The definitions of a document, each by its kind and its name. -/
def Document.outline (doc : Document) : List (String × Option String) :=
  (Node.document doc).children.map fun n => (n.kind, n.name?)

/-- The operation and the three fragments of the introspection query. -/
def introspectionQueryOutline : List (String × Option String) :=
  [("OperationDefinition", some "IntrospectionQuery"), ("FragmentDefinition", some "FullType"),
    ("FragmentDefinition", some "InputValue"), ("FragmentDefinition", some "TypeRef")]

/-- The introspection query is read as its operation and its fragments, and fits. -/
theorem exists_read_introspectionQuery : ∃ doc, Document.read introspectionQuery = .ok doc ∧
    doc.outline = introspectionQueryOutline ∧
    Known.start.fits doc 20 (.document doc) = true := by
  have hread : ((Document.read introspectionQuery).toOption.any fun doc =>
      decide (doc.outline = introspectionQueryOutline) &&
        Known.start.fits doc 20 (.document doc)) = true := by
    -- the characters have to be there before the text can be evaluated
    rw [Document.read, Reading.wholeText, Scan.ofText, toList_introspectionQuery]
    decide +kernel
  obtain ⟨doc, hdoc, hholds⟩ := exists_of_any_toOption hread
  obtain ⟨houtline, hfits⟩ := Bool.and_eq_true_iff.1 hholds
  exact ⟨doc, hdoc, of_decide_eq_true houtline, hfits⟩

/-- Whatever sources a schema is built of, the introspection query, which is read as an operation
and the three fragments that it is written as, is valid in it. -/
theorem introspectionQuery_valid (sources : List (Option Path × String)) {s : Schema}
    (hbuild : (sources.foldlM (fun b source => b.load source.1 source.2) Builder.empty >>=
      Builder.build) = .ok s) :
    ∃ doc, Document.read introspectionQuery = .ok doc ∧
      doc.outline = introspectionQueryOutline ∧ s.validate doc = [] := by
  obtain ⟨ds, b, hb, hbuild, -⟩ := exists_loaded_of_build hbuild
  have hoffers : s.Offers := (Schema.MadeOf.of_build hb hbuild).offers
  obtain ⟨doc, hread, houtline, hfits⟩ := exists_read_introspectionQuery
  exact ⟨doc, hread, houtline, validate_eq_nil_of_fits hoffers hfits⟩

/-- The path of the source below. -/
def selfQueryPath : Path := ⟨"self.graphql"⟩

/-- A source in which types are described by the very type at the root of queries, to which it adds
a field. -/
def selfQuerySource : String :=
  "schema \x7b query: __Type \x7d extend type __Type \x7b schema: __Schema! \x7d"

/-- A schema can be built in which an introspection type is extended and stands at the root of
queries, and the introspection query is valid in it. -/
theorem introspectionQuery_valid_selfQuery :
    ∃ s doc, ([(some selfQueryPath, selfQuerySource)].foldlM
        (fun b source => b.load source.1 source.2) Builder.empty >>= Builder.build) = .ok s ∧
      Document.read introspectionQuery = .ok doc ∧ s.validate doc = [] := by
  have hpath : selfQueryPath.same Introspection.path = false := by decide +kernel
  have hsource : makesUpSchema selfQueryPath selfQuerySource = true := by decide +kernel
  obtain ⟨s, hbuild⟩ := exists_build_of_source hpath hsource
  obtain ⟨doc, hread, -, hvalid⟩ := introspectionQuery_valid _ hbuild
  exact ⟨s, doc, hbuild, hread, hvalid⟩

end GraphQLCheck
