import GraphQLCheck.Proofs.Schema.Sources

/-!
# Written types and what they stand for

A written type is resolved in two ways. In a schema it is kept as an annotated type first, where a
flag that is set from outside says whether a layer is nullable, and in a document it is resolved as
it stands, where a non-null mark clears the flag of what has been found. `TypeRef.ofExprAs` is what
both come to: the named type at the core, with the written lists and marks around it.

Main statements: either way a type is resolved by looking up its core (`Schema.resolve?_ofExprAs`,
`Schema.typeOfExpr?_eq_map`), and in a schema that has been built both ways lead to the same
reference, which is written down as the type was written if no mark is repeated
(`annotated_types_resolve_as_written`).
-/

namespace GraphQLCheck

namespace TypeExpr

/-- Whether a written type is marked as non-null. -/
def isMarked : TypeExpr → Bool
  | nonNull _ => true
  | named _ | list _ => false

/-- Whether no part of a written type is marked as non-null more than once. -/
def MarkedOnce : TypeExpr → Prop
  | named _ => True
  | list item => item.MarkedOnce
  | nonNull inner => inner.isMarked = false ∧ inner.MarkedOnce

/-- Whether marks are repeated is decidable. -/
instance decidableMarkedOnce : (e : TypeExpr) → Decidable e.MarkedOnce
  | named _ => .isTrue trivial
  | list item => decidableMarkedOnce item
  | nonNull inner =>
    have := decidableMarkedOnce inner
    inferInstanceAs (Decidable (_ ∧ _))

end TypeExpr

/-- The annotated type for a written type without repeated marks is written down as that type, and
with a mark if it is made as not nullable. -/
theorem AnnotatedType.text_ofExprAs (location : SourceLocation) {nullable : Bool} {e : TypeExpr}
    (he : e.MarkedOnce) (hmark : nullable = true ∨ e.isMarked = false) :
    (ofExprAs location nullable e).text = e.text ++ if nullable then "" else "!" := by
  -- a mark is left out of the annotated type, and comes back in as the flag of what it marks
  induction e generalizing nullable with
  | named name => rfl
  | list item ih =>
    rw [ofExprAs, text, ih he (.inl rfl), TypeExpr.text]
    simp only [if_true, String.append_empty]
  | nonNull inner ih =>
    obtain ⟨hinner, he⟩ := he
    obtain rfl : nullable = true := hmark.resolve_right fun h => nomatch h
    rw [ofExprAs, ih he (.inr hinner), TypeExpr.text]
    simp only [if_true, Bool.false_eq_true, if_false, String.append_empty]

/-- A mark that is repeated is written down once. -/
example : (AnnotatedType.ofExpr .builtIn (.nonNull (.nonNull (.named "Int")))).text = "Int!" := rfl

namespace TypeRef

/-- The reference that a written type stands for if its core stands for a type. The reference is
nullable if `nullable` holds and the written type has no non-null mark of its own. -/
def ofExprAs (type : NamedType) (nullable : Bool) : TypeExpr → TypeRef
  | .named _ => named type nullable
  | .list item => list (ofExprAs type true item) nullable
  | .nonNull inner => ofExprAs type false inner

/-- A reference has the type at its core of which it is made. -/
@[simp]
theorem core_ofExprAs (type : NamedType) (nullable : Bool) (e : TypeExpr) :
    (ofExprAs type nullable e).core = type := by
  induction e generalizing nullable with
  | named _ => rfl
  | list item ih => exact ih true
  | nonNull inner ih => exact ih false

/-- A reference made non-null is one that is made as non-null. -/
theorem nonNull_ofExprAs (type : NamedType) (nullable : Bool) (e : TypeExpr) :
    (ofExprAs type nullable e).nonNull = ofExprAs type false e := by
  induction e generalizing nullable with
  | named _ | list _ _ => rfl
  | nonNull inner ih => exact ih false

end TypeRef

namespace Schema

variable {s : Schema}

/-- Resolving a written type is looking up the name at its core. -/
theorem typeOfExpr?_eq_map (s : Schema) (e : TypeExpr) :
    s.typeOfExpr? e = (s.type? e.coreName).map (TypeRef.ofExprAs · true e) := by
  induction e with
  | named _ => rfl
  | list item ih => rw [typeOfExpr?, ih, Option.map_map]; rfl
  | nonNull inner ih =>
    rw [typeOfExpr?, ih, Option.map_map]
    exact congrArg (Option.map · _) (funext fun type => TypeRef.nonNull_ofExprAs type true inner)

/-- Resolving the annotated type for a written type is looking up the name at its core. -/
theorem resolve?_ofExprAs (s : Schema) (location : SourceLocation) (nullable : Bool)
    (e : TypeExpr) :
    s.resolve? (.ofExprAs location nullable e) =
      (s.type? e.coreName).map (TypeRef.ofExprAs · nullable e) := by
  induction e generalizing nullable with
  | named _ => rfl
  | list item ih => rw [AnnotatedType.ofExprAs, resolve?, ih, Option.map_map]; rfl
  | nonNull inner ih => exact ih false

/-- A reference to a type that is held under its own name is written down as the annotated type that
it resolves. -/
theorem text_of_resolve? {type : AnnotatedType} {r : TypeRef} (h : s.resolve? type = some r)
    (hname : r.core.name = type.core.name) : r.text = type.text := by
  induction type generalizing r with
  | named reference nullable =>
    obtain ⟨t, -, rfl⟩ := Option.map_eq_some_iff.1 h
    have hname : t.name = reference.name := hname
    rw [TypeRef.text, AnnotatedType.text, hname]
  | list item nullable location ih =>
    obtain ⟨r', hr', rfl⟩ := Option.map_eq_some_iff.1 h
    rw [TypeRef.text, AnnotatedType.text, ih hr' hname]

end Schema

/-- In every schema that has been built, a written type stands for the same in a definition,
wherever that is, and in a document, and for nothing just if the name at its core is not defined. If
no mark is repeated, then both the annotated type and what it stands for are written down as the
type is. -/
theorem annotated_types_resolve_as_written (sources : List (Option Path × String)) {s : Schema}
    (hbuild : (sources.foldlM (fun b source => b.load source.1 source.2) Builder.empty >>=
      Builder.build) = .ok s) (location : SourceLocation) (e : TypeExpr) :
    s.resolve? (.ofExpr location e) = s.typeOfExpr? e ∧
    (s.typeOfExpr? e = none ↔ s.type? e.coreName = none) ∧
    (e.MarkedOnce → (AnnotatedType.ofExpr location e).text = e.text ∧
      ∀ r, s.typeOfExpr? e = some r → r.text = e.text) := by
  have hresolve : s.resolve? (.ofExpr location e) = s.typeOfExpr? e := by
    rw [s.typeOfExpr?_eq_map]
    exact s.resolve?_ofExprAs location true e
  refine ⟨hresolve, ?_, fun he => ?_⟩
  · rw [s.typeOfExpr?_eq_map, Option.map_eq_none_iff]
  have htext : (AnnotatedType.ofExpr location e).text = e.text := by
    rw [AnnotatedType.ofExpr, AnnotatedType.text_ofExprAs location he (.inl rfl), if_pos rfl,
      String.append_empty]
  refine ⟨htext, fun r hr => ?_⟩
  rw [← hresolve] at hr
  -- the type at the core has the name under which it is held
  obtain ⟨b, hb, hbuild⟩ := exists_loaded_writtenFrom hbuild
  have hmade : s.MadeOf (writtenFrom 0 sources) := .of_build hb hbuild
  have hname : r.core.name = (AnnotatedType.ofExpr location e).core.name :=
    hmade.types.name_of_get? (Schema.type?_core_of_resolve? hr)
  exact (Schema.text_of_resolve? hr hname).trans htext

namespace NestedLists

/-- The path of the source below. -/
def path : Path := ⟨"nested.graphql"⟩

/-- A source with a field of a nested list type. -/
def source : String := "type Query \x7b rows: [[Int!]]! \x7d"

/-- The type of that field, as it is written. -/
def type : TypeExpr := .nonNull (.list (.list (.nonNull (.named "Int"))))

end NestedLists

open NestedLists in
/-- The type of the field in that source stands for something, which is written down as it is. -/
theorem annotated_types_resolve_as_written_nestedLists :
    ∃ s r, ([(some path, source)].foldlM (fun b source => b.load source.1 source.2)
        Builder.empty >>= Builder.build) = .ok s ∧
      s.resolve? (.ofExpr (.written path ⟨1, 14⟩) type) = some r ∧ s.typeOfExpr? type = some r ∧
      (AnnotatedType.ofExpr (.written path ⟨1, 14⟩) type).text = "[[Int!]]!" ∧
      r.text = "[[Int!]]!" := by
  have hpath : path.same Introspection.path = false := by decide +kernel
  have hsource : makesUpSchema path source = true := by decide +kernel
  obtain ⟨s, hbuild⟩ := exists_build_of_source hpath hsource
  obtain ⟨hresolve, hnone, htexts⟩ :=
    annotated_types_resolve_as_written _ hbuild (.written path ⟨1, 14⟩) type
  obtain ⟨htext, hreference⟩ := htexts (by decide)
  -- the type at the core is built in
  obtain ⟨b, hb, hbuilt⟩ := exists_loaded_writtenFrom hbuild
  have hmade : s.MadeOf (writtenFrom 0 [(some path, source)]) := .of_build hb hbuilt
  have hint : s.type? type.coreName = some (.builtIn .int) := hmade.types.builtIn .int
  obtain ⟨r, hr⟩ : ∃ r, s.typeOfExpr? type = some r := by
    refine Option.ne_none_iff_exists'.1 fun h => ?_
    exact nomatch hint.symm.trans (hnone.1 h)
  exact ⟨s, r, hbuild, hresolve.trans hr, hr, htext, hreference r hr⟩

end GraphQLCheck
