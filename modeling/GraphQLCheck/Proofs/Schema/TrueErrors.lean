import GraphQLCheck.Proofs.Schema.BadReferences
import GraphQLCheck.Proofs.Schema.MemberErrors

/-!
# Errors that are true of what is written

An error of building a schema says something about the definitions that have been taken.
`BuildError.TrueOf` is what it says, kind by kind, and asks only which definitions there are and in
which order the extensions of a type are merged.

Main statements: a definition that cannot be taken fails with an error that is true of what has been
taken, the definition included (`Loaded.trueOf_step`), an extension that has been kept and cannot be
merged fails with an error that is true of all that is written (`Loaded.trueOf_merge`), and so do
the checks after that (`TypesHeld.trueOf_checked`, `Loaded.trueOf_finished`).
-/

namespace GraphQLCheck

open TypeSystem (TypeDefinition TypeExtension DirectiveDefinition SchemaBlock)

section Names

variable (ds : List WrittenDefinition) (name : String)

/-- Whether a name stands for no type. -/
def Undefined : Prop := ∀ kind, ¬ DefinedAs ds name kind

/-- Whether a name stands for types of one kind only, and for one of this kind. -/
def DefinedJustAs (kind : TypeKind) : Prop := ∀ kind', DefinedAs ds name kind' ↔ kind' = kind

end Names

/-- The types to which a member refers. -/
def MemberDef.references : MemberDef → List TypeReference
  | field f => f.type.core :: f.parameters.values.map fun p => p.type.core
  | inputField f => [f.type.core]
  | value _ => []
  | member r => [r]

section Written

variable (ds : List WrittenDefinition)

/-- The parts of a type that is defined, in the order in which they are taken. -/
def partsIn (d : Path × TypeDefinition) : List Part := partsOf d (mergedExtensions ds)

/-- The names of the types with the places of their definitions, built-in scalars first. -/
def typePlacesIn : List (String × SourceLocation) :=
  builtInNames.map (·, .builtIn) ++
    (typesIn ds).map fun d => (d.2.name, .written d.1 d.2.position)

/-- The names of the directives with the places of their definitions. -/
def directivePlacesIn : List (String × SourceLocation) :=
  (directivesIn ds).map fun d => (d.2.name, .written d.1 d.2.position)

/-- Whether an error about a reference is true of some definitions. -/
inductive ReferenceError.TrueOf : ReferenceError → Prop where
  | emptyEnum {path : Path} {d : TypeDefinition} (hd : (path, d) ∈ typesIn ds)
    (hkind : d.body.kind = .enum) (hvalues : (partsIn ds (path, d)).flatMap Part.entries = []) :
    TrueOf (.emptyEnum (.written path d.position) d.name)
  | implementsNonInterface {path : Path} {d : TypeDefinition} {r : TypeReference} {kind : TypeKind}
    (hd : (path, d) ∈ typesIn ds) (hr : r ∈ (partsIn ds (path, d)).flatMap Part.interfaces)
    (hkind : DefinedJustAs ds r.name kind) (hinterface : kind ≠ .interface) :
    TrueOf (.implementsNonInterface (.written path d.position) d.name r.name)
  | implementsUndefinedInterface {path : Path} {d : TypeDefinition} {r : TypeReference}
    (hd : (path, d) ∈ typesIn ds) (hr : r ∈ (partsIn ds (path, d)).flatMap Part.interfaces)
    (hundefined : Undefined ds r.name) :
    TrueOf (.implementsUndefinedInterface (.written path d.position) d.name r.name)
  | inputFieldOfOutputType {d : Path × TypeDefinition} {name : String} {f : InputDef}
    {kind : TypeKind} (hd : d ∈ typesIn ds)
    (hf : (name, .inputField f) ∈ (partsIn ds d).flatMap Part.entries)
    (hkind : DefinedJustAs ds f.type.core.name kind) (hinput : kind.isInput = false) :
    TrueOf (.inputFieldOfOutputType f.location d.2.name name f.type.core.name)
  | nonObjectUnionMember {d : Path × TypeDefinition} {r : TypeReference} {kind : TypeKind}
    (hd : d ∈ typesIn ds) (hr : (r.name, .member r) ∈ (partsIn ds d).flatMap Part.entries)
    (hkind : DefinedJustAs ds r.name kind) (hobject : kind ≠ .object) :
    TrueOf (.nonObjectUnionMember r.location d.2.name r.name kind)
  | outputFieldOfInputType {d : Path × TypeDefinition} {name : String} {f : FieldDef}
    {kind : TypeKind} (hd : d ∈ typesIn ds)
    (hf : (name, .field f) ∈ (partsIn ds d).flatMap Part.entries)
    (hkind : DefinedJustAs ds f.type.core.name kind) (houtput : kind.isOutput = false) :
    TrueOf (.outputFieldOfInputType f.location d.2.name name f.type.core.name)
  | parameterOfOutputType {d : Path × TypeDefinition} {name : String} {f : FieldDef} {p : InputDef}
    {kind : TypeKind} (hd : d ∈ typesIn ds)
    (hf : (name, .field f) ∈ (partsIn ds d).flatMap Part.entries) (hp : p ∈ f.parameters.values)
    (hkind : DefinedJustAs ds p.type.core.name kind) (hinput : kind.isInput = false) :
    TrueOf (.parameterOfOutputType p.location p.name p.type.core.name)
  | undefinedType {d : Path × TypeDefinition} {name : String} {m : MemberDef} {r : TypeReference}
    (hd : d ∈ typesIn ds) (hm : (name, m) ∈ (partsIn ds d).flatMap Part.entries)
    (hr : r ∈ m.references) (hundefined : Undefined ds r.name) :
    TrueOf (.undefinedType r.location r.name)

/-- Whether an error is true of some definitions. What comes twice is found at two places, the one
that is taken first being cited first. No definitions make an error of reading true. -/
inductive BuildError.TrueOf : BuildError → Prop where
  | ofParts {d : Path × TypeDefinition} {e : BuildError} (hd : d ∈ typesIn ds)
    (he : e.TrueOfParts d.2.name (partsIn ds d)) : TrueOf e
  | duplicateType {name : String} {first second : SourceLocation}
    (htwice : [(name, first), (name, second)].Sublist (typePlacesIn ds)) :
    TrueOf (.duplicateType name first second)
  | reservedTypeName {path : Path} {d : TypeDefinition} (hd : (path, d) ∈ typesIn ds)
    (hname : isReservedName d.name = true) :
    TrueOf (.reservedTypeName d.name (.written path d.position))
  | extensionOfBuiltIn {path : Path} {e : TypeExtension} (he : (path, e) ∈ extensionsIn ds)
    (hkind : e.body.kind = .scalar) (hname : e.name ∈ builtInNames) :
    TrueOf (.extensionOfBuiltIn e.name (.written path e.position))
  | extensionOfUndefined {path : Path} {e : TypeExtension} (he : (path, e) ∈ extensionsIn ds)
    (hname : Undefined ds e.name) : TrueOf (.extensionOfUndefined e.name (.written path e.position))
  | extensionOfOtherKind {path : Path} {e : TypeExtension} {kind : TypeKind}
    (he : (path, e) ∈ extensionsIn ds) (hname : DefinedJustAs ds e.name kind)
    (hkind : e.body.kind ≠ kind) :
    TrueOf (.extensionOfOtherKind e.name e.body.kind kind (.written path e.position))
  | duplicateDirective {name : String} {first second : SourceLocation}
    (htwice : [(name, first), (name, second)].Sublist (directivePlacesIn ds)) :
    TrueOf (.duplicateDirective name first second)
  | reservedDirectiveName {path : Path} {d : DirectiveDefinition} (hd : (path, d) ∈ directivesIn ds)
    (hname : isReservedName d.name = true) :
    TrueOf (.reservedDirectiveName d.name (.written path d.position))
  | builtInDirective {path : Path} {d : DirectiveDefinition} (hd : (path, d) ∈ directivesIn ds)
    (hname : d.name ∈ DirectiveDef.builtIns.map DirectiveDef.name) :
    TrueOf (.builtInDirective d.name (.written path d.position))
  | duplicateRoot {kind : OperationKind} {first second : RootDeclaration}
    (htwice : [(kind, first), (kind, second)].Sublist (rootsIn ds)) :
    TrueOf (.duplicateRoot kind first second)
  | sharedRoot {kind kind' : OperationKind} {r r' : RootDeclaration} (hkinds : kind ≠ kind')
    (hr : (kind, r) ∈ rootsIn ds) (hr' : (kind', r') ∈ rootsIn ds) (htype : r.type = r'.type) :
    TrueOf (.sharedRoot r.type kind kind' r.location r'.location)
  | invalidRoot {kind : OperationKind} {r : RootDeclaration} (hr : (kind, r) ∈ rootsIn ds)
    (hobject : ¬ DefinedAs ds r.type .object) : TrueOf (.invalidRoot kind r.type r.location)
  | noQueryType (hnone : ∀ r, (.query, r) ∉ rootsIn ds)
    (hobject : ¬ DefinedAs ds OperationKind.query.defaultTypeName .object) : TrueOf .noQueryType
  | badReferences {errors : List ReferenceError} (hne : errors ≠ [])
    (herrors : ∀ e ∈ errors, e.TrueOf ds) : TrueOf (.badReferences errors)

end Written

/-- More extensions are more parts of a type. -/
theorem partsOf_sublist {es es' : List (Path × TypeExtension)} (h : es.Sublist es')
    (d : Path × TypeDefinition) : (partsOf d es).Sublist (partsOf d es') :=
  .cons_cons _ ((h.filter _).map _)

/-- A definition that is already there stands before one that is taken now. -/
private theorem pair_sublist_concat {α : Type} {xs : List α} {a b : α} (h : a ∈ xs) :
    [a, b].Sublist (xs ++ [b]) :=
  (List.singleton_sublist.2 h).append (.refl [b])

namespace TypesHeld

variable {ds : List WrittenDefinition} {es : List (Path × TypeExtension)} {types : TypeMap}
  {name : String}

/-- A name without a type is undefined. -/
theorem undefined_of_get? (h : TypesHeld (typesIn ds) es types) (hget : types.get? name = none) :
    Undefined ds name := by
  intro kind hdefined
  obtain ⟨t, ht, -⟩ := (h.hasKind_iff name kind).2 hdefined
  exact nomatch hget.symm.trans ht

/-- A name stands for the type that is found under it, and no other. -/
theorem definedJustAs_of_get? (h : TypesHeld (typesIn ds) es types) {t : NamedType}
    (hget : types.get? name = some t) : DefinedJustAs ds name t.kind := by
  intro kind
  rw [← h.hasKind_iff]
  constructor
  · rintro ⟨t', ht', rfl⟩
    rw [Option.some.inj (hget.symm.trans ht')]
  · rintro rfl
    exact ⟨t, hget, rfl⟩

/-- Where a type is defined. -/
theorem location_mem (h : TypesHeld (typesIn ds) es types) {t : NamedType}
    (hget : types.get? name = some t) : (name, t.location) ∈ typePlacesIn ds := by
  rcases h.cases hget with ⟨s, rfl, rfl⟩ | ⟨d, hd, rfl, hassembled⟩
  · have hname : s.name ∈ builtInNames := List.mem_map_of_mem (by cases s <;> decide)
    exact List.mem_append_left _ (List.mem_map_of_mem hname)
  · rw [hassembled.location]
    exact List.mem_append_right _ (List.mem_map.2 ⟨d, hd, rfl⟩)

/-- An extension that cannot be merged into its type fails with an error that is true of what is
written, if the extension comes next in the order in which all are merged. -/
theorem trueOf_extend (h : TypesHeld (typesIn ds) es types) {path : Path} {e : TypeExtension}
    {t : NamedType} {error : BuildError} (hget : types.get? e.name = some t)
    (herror : t.extend path e = .error error) (he : (path, e) ∈ extensionsIn ds)
    (hnext : (es ++ [(path, e)]).Sublist (mergedExtensions ds)) : error.TrueOf ds := by
  have hkind := h.definedJustAs_of_get? hget
  rcases h.cases hget with ⟨s, hname, rfl⟩ | ⟨d, hd, hname, hassembled⟩
  · -- a built-in scalar has no parts that could be at fault
    rcases @NamedType.trueOf_extend path e _ [] error rfl rfl herror with
      ⟨-, hscalar, rfl⟩ | ⟨hother, rfl⟩ | ⟨hcustom, -⟩
    · refine .extensionOfBuiltIn he hscalar ?_
      rw [← hname]
      exact List.mem_map_of_mem (by cases s <;> decide)
    · exact .extensionOfOtherKind he hkind hother
    · exact absurd rfl (hcustom s)
  · rcases NamedType.trueOf_extend hassembled.entries hassembled.interfaces herror with
      ⟨⟨s, hs⟩, -⟩ | ⟨hother, rfl⟩ | ⟨-, hparts⟩
    · exact absurd hs (hassembled.ne_builtIn s)
    · exact .extensionOfOtherKind he hkind hother
    · rw [← hname, ← partsOf_append_of_eq (e := (path, e)) es hname.symm] at hparts
      exact .ofParts hd (hparts.mono (partsOf_sublist hnext d))

end TypesHeld

namespace RootsHeld

variable {rs : List (OperationKind × RootDeclaration)} {b : Builder} {error : BuildError}

/-- A root that cannot be declared comes after one of its kind. -/
theorem duplicate_of_declareNamedRoot (h : RootsHeld rs b) {location : SourceLocation}
    {entry : OperationKind × Option String}
    (herror : b.declareNamedRoot location entry = .error error) :
    ∃ kind first second, error = .duplicateRoot kind first second ∧ (kind, first) ∈ rs ∧
      namedRoot location entry = [(kind, second)] := by
  obtain ⟨kind, type⟩ := entry
  cases type with
  | none => cases herror
  | some type =>
    simp only [Builder.declareNamedRoot, Builder.declareRoot] at herror
    cases hget : b.root? kind with
    | none =>
      rw [hget] at herror
      cases herror
    | some first =>
      rw [hget] at herror
      exact ⟨kind, first, ⟨type, location⟩, (Except.error.inj herror).symm,
        (h.declared kind first).1 hget, rfl⟩

/-- Roots that cannot all be declared are more than one for a kind. -/
theorem duplicate_of_foldlM (h : RootsHeld rs b) {location : SourceLocation}
    {entries : List (OperationKind × Option String)}
    (herror : entries.foldlM (Builder.declareNamedRoot location) b = .error error) :
    ∃ kind first second, error = .duplicateRoot kind first second ∧
      [(kind, first), (kind, second)].Sublist (rs ++ entries.flatMap (namedRoot location)) := by
  obtain ⟨before, entry, after, b', rfl, hbefore, hentry⟩ := foldlM_eq_error herror
  obtain ⟨-, hroots⟩ := h.foldlM_declareNamedRoot hbefore
  obtain ⟨kind, first, second, rfl, hfirst, hsecond⟩ :=
    hroots.duplicate_of_declareNamedRoot hentry
  -- the first one is declared before the block or earlier in it
  refine ⟨kind, first, second, rfl, ?_⟩
  rw [List.flatMap_append, List.flatMap_cons, hsecond, ← List.append_assoc, ← List.append_assoc]
  exact (pair_sublist_concat hfirst).trans (List.sublist_append_left _ _)

/-- Two kinds that do not pass the check have the same root. -/
theorem shared_of_checkDistinctRoots (h : RootsHeld rs b) {kind kind' : OperationKind}
    (herror : b.checkDistinctRoots kind kind' = .error error) :
    ∃ r r', error = .sharedRoot r.type kind kind' r.location r'.location ∧ (kind, r) ∈ rs ∧
      (kind', r') ∈ rs ∧ r.type = r'.type := by
  rw [Builder.checkDistinctRoots] at herror
  split at herror
  next r r' hr hr' =>
    split at herror
    next htype =>
      exact ⟨r, r', (Except.error.inj herror).symm, (h.declared kind r).1 hr,
        (h.declared kind' r').1 hr', htype⟩
    next => cases herror
  next => cases herror

end RootsHeld

namespace Loaded

variable {ds : List WrittenDefinition} {b : Builder} {path : Path} {error : BuildError}

/-- A schema block that cannot be taken. -/
theorem trueOf_addSchemaBlock (h : Loaded ds b) {d : SchemaBlock}
    (herror : b.addSchemaBlock path d = .error error) :
    error.TrueOf (ds ++ [(path, .schema d)]) := by
  have hrootsIn := rootsIn_concat_schema ds path d
  rcases bind_eq_error.1 herror with herror | ⟨b', hfold, herror⟩
  · obtain ⟨kind, first, second, rfl, htwice⟩ := h.roots.duplicate_of_foldlM herror
    refine .duplicateRoot ?_
    rw [hrootsIn]
    exact htwice
  · obtain ⟨-, hroots⟩ := h.roots.foldlM_declareNamedRoot hfold
    have hshared {kind kind' : OperationKind} (hkinds : kind ≠ kind')
        (hcheck : b'.checkDistinctRoots kind kind' = .error error) :
        error.TrueOf (ds ++ [(path, .schema d)]) := by
      obtain ⟨r, r', rfl, hr, hr', htype⟩ := hroots.shared_of_checkDistinctRoots hcheck
      refine .sharedRoot hkinds ?_ ?_ htype
      · rw [hrootsIn]
        exact hr
      · rw [hrootsIn]
        exact hr'
    -- each of the three checks may be the one that fails
    rcases bind_eq_error.1 herror with hcheck | ⟨_, -, herror⟩
    · exact hshared (by decide) hcheck
    · rcases bind_eq_error.1 herror with hcheck | ⟨_, -, herror⟩
      · exact hshared (by decide) hcheck
      · exact hshared (by decide) (bind_pure_eq_error.1 herror)

/-- A definition of a type that cannot be taken. -/
theorem trueOf_addType (h : Loaded ds b) {d : TypeDefinition}
    (herror : b.addType path d = .error error) : error.TrueOf (ds ++ [(path, .type d)]) := by
  have hd : (path, d) ∈ typesIn (ds ++ [(path, .type d)]) :=
    mem_typesIn.2 (List.mem_append_right _ (List.mem_singleton.2 rfl))
  rcases bind_eq_error.1 herror with herror | ⟨t, hdefinition, herror⟩
  · rcases NamedType.trueOf_ofDefinition herror with ⟨hname, rfl⟩ | hparts
    · exact .reservedTypeName hd hname
    · exact .ofParts hd (hparts.mono (.cons_cons _ (List.nil_sublist _)))
  · cases hget : b.types.get? d.name with
    | none =>
      rw [hget] at herror
      cases herror
    | some first =>
      rw [hget] at herror
      obtain rfl := Except.error.inj herror
      -- the type that is there stands before the new one, which is written last
      refine .duplicateType ?_
      rw [(Assembled.of_ofDefinition hdefinition).location, typePlacesIn, typesIn_append,
        List.map_append, ← List.append_assoc]
      exact pair_sublist_concat (h.types.location_mem hget)

/-- An extension that cannot be taken. -/
theorem trueOf_addExtension (h : Loaded ds b) {e : TypeExtension}
    (herror : b.addExtension path e = .error error) :
    error.TrueOf (ds ++ [(path, .extension e)]) := by
  rw [Builder.addExtension] at herror
  cases hget : b.types.get? e.name with
  | none =>
    rw [hget] at herror
    cases herror
  | some t =>
    rw [hget] at herror
    -- the type is there, so the extension is merged at once, before all that are kept
    have hheld := h.types
    rw [← typesIn_concat_of_none (x := (path, .extension e)) ds rfl] at hheld
    have hlate := decide_eq_true
      ((h.mem_keys_iff e.name).1 (OrderedMap.mem_keys_of_get? hget))
    refine hheld.trueOf_extend hget (bind_pure_eq_error.1 herror)
      (mem_extensionsIn.2 (List.mem_append_right _ (List.mem_singleton.2 rfl))) ?_
    rw [mergedExtensions, lateExtensions, lateExtensions, extensionsFrom_concat, if_pos hlate]
    exact List.sublist_append_left _ _

/-- A definition of a directive that cannot be taken. -/
theorem trueOf_addDirective (h : Loaded ds b) {d : DirectiveDefinition}
    (herror : b.addDirective path d = .error error) :
    error.TrueOf (ds ++ [(path, .directive d)]) := by
  have hd : (path, d) ∈ directivesIn (ds ++ [(path, .directive d)]) :=
    mem_directivesIn.2 (List.mem_append_right _ (List.mem_singleton.2 rfl))
  rw [Builder.addDirective] at herror
  -- the names of built-in directives are checked first, then reserved names, then those in use
  cases hbuiltIn : DirectiveDef.builtIns.any (·.name = d.name) with
  | true =>
    rw [hbuiltIn] at herror
    obtain rfl := Except.error.inj herror
    obtain ⟨builtIn, hmem, hname⟩ := List.any_eq_true.1 hbuiltIn
    exact .builtInDirective hd (List.mem_map.2 ⟨builtIn, hmem, of_decide_eq_true hname⟩)
  | false =>
    rw [hbuiltIn] at herror
    cases hreserved : isReservedName d.name with
    | true =>
      rw [hreserved] at herror
      obtain rfl := Except.error.inj herror
      exact .reservedDirectiveName hd hreserved
    | false =>
      rw [hreserved] at herror
      cases hget : b.directives.get? d.name with
      | none =>
        rw [hget] at herror
        cases herror
      | some first =>
        rw [hget] at herror
        obtain rfl := Except.error.inj herror
        have hfirst : (d.name, first) ∈ b.directives.entries := OrderedMap.get?_eq_some_iff.1 hget
        rw [h.directives] at hfirst
        obtain ⟨w, hw, heq⟩ := List.mem_map.1 hfirst
        obtain ⟨hname, rfl⟩ := Prod.mk.inj heq
        refine .duplicateDirective ?_
        rw [directivePlacesIn, directivesIn_append, List.map_append]
        exact pair_sublist_concat (List.mem_map.2 ⟨w, hw, Prod.ext hname rfl⟩)

/-- A definition that cannot be taken after some others fails with an error that is true of them and
of the definition itself. -/
theorem trueOf_step (h : Loaded ds b) {x : WrittenDefinition}
    (herror : b.addDefinition x.1 x.2 = .error error) : error.TrueOf (ds ++ [x]) := by
  obtain ⟨path, d⟩ := x
  cases d with
  | schema d => exact h.trueOf_addSchemaBlock herror
  | type d => exact h.trueOf_addType herror
  | extension e => exact h.trueOf_addExtension herror
  | directive d => exact h.trueOf_addDirective herror

/-- An extension that has been kept and cannot be merged. -/
theorem trueOf_merge (h : Loaded ds b)
    (herror : b.orderedPending.foldlM Builder.mergePending b.types = .error error) :
    error.TrueOf ds := by
  obtain ⟨before, ⟨path, e⟩, after, types, hpending, hbefore, herror⟩ := foldlM_eq_error herror
  -- what has been merged so far is the beginning of what is merged in the end
  have hheld := h.types.foldlM_merge hbefore
  have hmerged := h.orderedPending
  rw [hpending, ← List.append_assoc] at hmerged
  have he : (path, e) ∈ extensionsIn ds := by
    refine (mergedExtensions_perm ds).mem_iff.1 ?_
    rw [← hmerged]
    exact List.mem_append_right _ List.mem_cons_self
  rw [Builder.mergePending] at herror
  cases hget : types.get? e.name with
  | none =>
    rw [hget] at herror
    obtain rfl := Except.error.inj herror
    exact .extensionOfUndefined he (hheld.undefined_of_get? hget)
  | some t =>
    rw [hget] at herror
    refine hheld.trueOf_extend hget (bind_pure_eq_error.1 herror) he ?_
    rw [← hmerged]
    exact (List.Sublist.refl _).append (.cons_cons _ (List.nil_sublist _))

end Loaded

namespace TypesHeld

variable {ds : List WrittenDefinition} {types : TypeMap} {d : Path × TypeDefinition}
  {e : ReferenceError}

/-- What is said about the type of a field or a parameter is true: it is undefined, or of a kind
that is not allowed. -/
theorem of_hasError {es : List (Path × TypeExtension)} (h : TypesHeld (typesIn ds) es types)
    {type : AnnotatedType} {allowed : NamedType → Bool} {notAllowed : String → ReferenceError}
    (he : type.HasError types.get? allowed notAllowed e) :
    e = .undefinedType type.core.location type.core.name ∧ Undefined ds type.core.name ∨
      ∃ t : NamedType, e = notAllowed type.core.name ∧ DefinedJustAs ds type.core.name t.kind ∧
        allowed t = false := by
  cases he with
  | undefined hget => exact .inl ⟨rfl, h.undefined_of_get? hget⟩
  | notAllowed hget ht => exact .inr ⟨_, rfl, h.definedJustAs_of_get? hget, ht⟩

variable (h : TypesHeld (typesIn ds) (mergedExtensions ds) types) (hd : d ∈ typesIn ds)
include h hd

/-- The errors of an object or an interface are true of what is written. -/
theorem trueOf_fieldedError {t : FieldedType} {spot : Spot} (hname : t.name = d.2.name)
    (hlocation : t.location = .written d.1 d.2.position)
    (hfields : ∀ name f, (name, f) ∈ t.fields.entries →
      (name, .field f) ∈ (partsIn ds d).flatMap Part.entries)
    (hinterfaces : t.interfaces = (partsIn ds d).flatMap Part.interfaces)
    (he : t.ErrorAt types.get? spot e) : e.TrueOf ds := by
  cases he with
  -- errors about interfaces are at the type itself, the others at the field or the parameter
  | @interface i name _ hi he =>
    obtain ⟨r, hr, rfl⟩ := List.mem_map.1 (List.mem_of_getElem? hi)
    rw [hinterfaces] at hr
    cases he with
    | undefined hget =>
      rw [hlocation, hname]
      exact .implementsUndefinedInterface hd hr (h.undefined_of_get? hget)
    | notAllowed hget hkind =>
      rw [hlocation, hname]
      exact .implementsNonInterface hd hr (h.definedJustAs_of_get? hget)
        (of_decide_eq_false hkind)
  | @field i entry _ _ hentry he =>
    have hf := hfields entry.1 entry.2 (List.mem_of_getElem? hentry)
    cases he with
    | type he =>
      rcases h.of_hasError he with ⟨rfl, hundefined⟩ | ⟨t', rfl, hkind, hallowed⟩
      · exact .undefinedType hd hf List.mem_cons_self hundefined
      · rw [hname]
        exact .outputFieldOfInputType hd hf hkind (t'.isOutput_eq ▸ hallowed)
    | @parameter j p _ hp he =>
      have hmem : p ∈ entry.2.parameters.values := List.mem_of_getElem? hp
      rcases h.of_hasError he with ⟨rfl, hundefined⟩ | ⟨t', rfl, hkind, hallowed⟩
      · exact .undefinedType hd hf (List.mem_cons_of_mem _ (List.mem_map_of_mem hmem)) hundefined
      · exact .parameterOfOutputType hd hf hmem hkind (t'.isInput_eq ▸ hallowed)

/-- The errors of a type that is assembled from its parts are true of what is written. -/
theorem trueOf_typeError {t : NamedType} {spot : Spot}
    (hassembled : Assembled d.1 d.2 (partsIn ds d) t)
    (he : t.ErrorAt types.get? d.2.name spot e) : e.TrueOf ds := by
  have hentry {entry : String × MemberDef} (hmem : entry ∈ t.entries) :
      entry ∈ (partsIn ds d).flatMap Part.entries := hassembled.entries ▸ hmem
  cases he with
  | object he | interface he =>
    refine h.trueOf_fieldedError hd hassembled.name hassembled.location (fun name f hf => ?_)
      hassembled.interfaces he
    exact hentry (List.mem_map.2 ⟨_, hf, rfl⟩)
  | @union t i member r _ hr he =>
    have hmem : (member, .member r) ∈ (partsIn ds d).flatMap Part.entries :=
      hentry (List.mem_map.2 ⟨_, List.mem_of_getElem? hr, rfl⟩)
    -- the union lists the member under the name to which it refers
    obtain ⟨part, -, hpart⟩ := List.mem_flatMap.1 hmem
    obtain rfl := Part.name_of_mem_entries hpart
    cases he with
    | undefined hget =>
      exact .undefinedType hd hmem (List.mem_singleton.2 rfl) (h.undefined_of_get? hget)
    | notAllowed hget hkind =>
      exact .nonObjectUnionMember hd hmem (h.definedJustAs_of_get? hget)
        (of_decide_eq_false hkind)
  | @enum t hvalues =>
    have hlocation : t.location = .written d.1 d.2.position := hassembled.location
    have hnil := hassembled.entries
    rw [NamedType.entries, hvalues] at hnil
    rw [hlocation]
    exact .emptyEnum hd hassembled.kind.symm hnil.symm
  | @inputObject t i field f _ hf he =>
    have hmem := hentry (List.mem_map.2 ⟨_, List.mem_of_getElem? hf, rfl⟩)
    rcases h.of_hasError he with ⟨rfl, hundefined⟩ | ⟨t', rfl, hkind, hallowed⟩
    · exact .undefinedType hd hmem (List.mem_singleton.2 rfl) hundefined
    · exact .inputFieldOfOutputType hd hmem hkind (t'.isInput_eq ▸ hallowed)

omit hd in
/-- Types that do not pass the check fail with errors that are all true of what is written. -/
theorem trueOf_checked {error : BuildError} (herror : types.checked = .error error) :
    error.TrueOf ds := by
  obtain ⟨found, hfound, -, hmem⟩ := types.listsInOrder_referenceErrors
  rw [TypeMap.checked] at herror
  split at herror
  next => cases herror
  next hne =>
    obtain rfl := Except.error.inj herror
    refine .badReferences hne fun e he => ?_
    rw [← hfound] at he
    obtain ⟨⟨⟨name, spot⟩, e⟩, hplace, rfl⟩ := List.mem_map.1 he
    obtain ⟨t, hget, he⟩ := (hmem _ _).1 hplace
    rcases h.cases hget with ⟨s, -, rfl⟩ | ⟨d, hd, rfl, hassembled⟩
    · cases he
    · exact h.trueOf_typeError hd hassembled he

end TypesHeld

namespace Loaded

variable {ds : List WrittenDefinition} {b : Builder} {types : TypeMap} {error : BuildError}

/-- A root that cannot be found is declared, and is no object. -/
theorem trueOf_resolveRoot (h : Loaded ds b) {es : List (Path × TypeExtension)}
    (htypes : TypesHeld (typesIn ds) es types) (kind : OperationKind)
    (herror : Builder.resolveRoot types kind (b.root? kind) = .error error) :
    error.TrueOf ds := by
  cases hroot : b.root? kind with
  | none =>
    rw [hroot] at herror
    obtain ⟨o, ho⟩ := @Builder.exists_resolveRoot_none types kind
    exact nomatch ho.symm.trans herror
  | some r =>
    rw [hroot] at herror
    have hobject : ¬ DefinedAs ds r.type .object := by
      rw [← htypes.hasKind_iff]
      intro hkind
      exact nomatch (Builder.resolveRoot_some_eq_ok_iff.2 ⟨hkind, rfl⟩).symm.trans herror
    rw [Builder.resolveRoot] at herror
    split at herror
    next => exact nomatch herror
    next =>
      obtain rfl := Except.error.inj herror
      exact .invalidRoot ((h.roots.declared kind r).1 hroot) hobject

/-- Roots that cannot all be found fail with an error that is true of what is written. -/
theorem trueOf_finished (h : Loaded ds b) {es : List (Path × TypeExtension)}
    (htypes : TypesHeld (typesIn ds) es types) (herror : b.finished types = .error error) :
    error.TrueOf ds := by
  rcases bind_eq_error.1 herror with hquery | ⟨query, hquery, herror⟩
  · exact h.trueOf_resolveRoot htypes .query hquery
  cases query with
  | none =>
    obtain rfl := Except.error.inj herror
    cases hroot : b.query with
    | some r =>
      -- a root that is declared is found or is an error of its own
      rw [hroot] at hquery
      exact nomatch (Builder.resolveRoot_some_eq_ok_iff.1 hquery).2
    | none =>
      rw [hroot] at hquery
      refine .noQueryType (fun r hr => ?_) fun hobject => ?_
      · exact nomatch hroot.symm.trans ((h.roots.declared .query r).2 hr)
      · obtain ⟨r, hr⟩ :=
          Builder.resolveRoot_none_eq_ok_some_iff.2 ((htypes.hasKind_iff _ _).2 hobject)
        exact nomatch Except.ok.inj (hquery.symm.trans hr)
  | some query =>
    rcases bind_eq_error.1 herror with herror | ⟨_, -, herror⟩
    · exact h.trueOf_resolveRoot htypes .mutation herror
    · exact h.trueOf_resolveRoot htypes .subscription (bind_pure_eq_error.1 herror)

/-- What remains to be done after the introspection types have been taken: merging the extensions
that have been kept, checking the references and finding the roots. -/
theorem trueOf_finish (h : Loaded ds b)
    (herror : (b.orderedPending.foldlM Builder.mergePending b.types >>= fun types =>
      types.checked >>= b.finished) = .error error) : error.TrueOf ds := by
  rcases bind_eq_error.1 herror with hmerge | ⟨types, hmerge, herror⟩
  · exact h.trueOf_merge hmerge
  · have htypes := h.merged hmerge
    rcases bind_eq_error.1 herror with hchecked | ⟨types', hchecked, herror⟩
    · exact htypes.trueOf_checked hchecked
    · rw [TypeMap.checked] at hchecked
      split at hchecked
      next =>
        obtain rfl := Except.ok.inj hchecked
        exact h.trueOf_finished htypes herror
      next => cases hchecked

end Loaded

end GraphQLCheck
