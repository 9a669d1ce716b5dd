import GraphQLCheck.Proofs.Schema.Assembly
import GraphQLCheck.Schema.Builder

/-!
# What is written in some sources

The definitions of any number of sources make one list, where each definition comes with the path of
its source. Here the list is taken apart: into the definitions of types, their extensions, the
definitions of directives, and the roots that schema blocks name. `lateExtensions` are the
extensions that come after the definition of their type, and `earlyExtensions` the others.
-/

namespace GraphQLCheck

open TypeSystem (TypeDefinition TypeExtension DirectiveDefinition SchemaBlock)

/-- A definition, with the path of the source in which it is written. -/
abbrev WrittenDefinition := Path × TypeSystem.Definition

/-- The root that is named for a kind of operation, if one is. -/
def namedRoot (location : SourceLocation) (entry : OperationKind × Option String) :
    List (OperationKind × RootDeclaration) :=
  entry.2.toList.map fun type => (entry.1, ⟨type, location⟩)

/-- The roots that a schema block names, by kind of operation. -/
def TypeSystem.SchemaBlock.roots (path : Path) (d : SchemaBlock) :
    List (OperationKind × RootDeclaration) :=
  [(.query, d.query), (.mutation, d.mutation), (.subscription, d.subscription)].flatMap
    (namedRoot (.written path d.position))

/-- The directive that is written in the source at `path`, where a later parameter takes the place
of an earlier one of the same name. -/
def DirectiveDef.written (path : Path) (d : DirectiveDefinition) : DirectiveDef where
  name := d.name
  location := .written path d.position
  description := d.description
  locations := d.locations
  parameters := .ofList (d.arguments.map fun v => (v.name, .ofWritten path v))

namespace WrittenDefinition

/-- Whether what is defined may have its name, other definitions apart: only the introspection types
have reserved names, and no directive has the name of one that is built in. -/
def NameAllowed : WrittenDefinition → Prop
  | (path, .type d) => (isReservedName d.name && !path.same Introspection.path) = false
  | (_, .directive d) =>
    DirectiveDef.builtIns.any (·.name = d.name) = false ∧ isReservedName d.name = false
  | _ => True

/-- The type that is defined, if one is. -/
def type? : WrittenDefinition → Option (Path × TypeDefinition)
  | (path, .type d) => some (path, d)
  | _ => none

/-- The type that is extended, if one is. -/
def extension? : WrittenDefinition → Option (Path × TypeExtension)
  | (path, .extension e) => some (path, e)
  | _ => none

/-- The directive that is defined, if one is. -/
def directive? : WrittenDefinition → Option (Path × DirectiveDefinition)
  | (path, .directive d) => some (path, d)
  | _ => none

/-- The roots that are declared. -/
def roots : WrittenDefinition → List (OperationKind × RootDeclaration)
  | (path, .schema d) => d.roots path
  | _ => []

end WrittenDefinition

section Views

variable (ds : List WrittenDefinition)

/-- The definitions of types. -/
def typesIn : List (Path × TypeDefinition) := ds.filterMap WrittenDefinition.type?

/-- The names of the types that are defined. -/
def typeNamesIn : List String := (typesIn ds).map fun d => d.2.name

/-- The extensions of types. -/
def extensionsIn : List (Path × TypeExtension) := ds.filterMap WrittenDefinition.extension?

/-- The definitions of directives. -/
def directivesIn : List (Path × DirectiveDefinition) := ds.filterMap WrittenDefinition.directive?

/-- The roots that the schema blocks declare. -/
def rootsIn : List (OperationKind × RootDeclaration) := ds.flatMap WrittenDefinition.roots

variable {ds} in
/-- What is listed by a view of definitions of one kind is written, if the view recovers just the
definitions of that kind. -/
private theorem mem_view {α : Type} {view : WrittenDefinition → Option (Path × α)}
    {make : α → TypeSystem.Definition}
    (h : ∀ x path d, view x = some (path, d) ↔ x = (path, make d)) {path : Path} {d : α} :
    (path, d) ∈ ds.filterMap view ↔ (path, make d) ∈ ds := by
  simp only [List.mem_filterMap, h, exists_eq_right]

variable {ds} in
/-- A type is defined if its definition is written. -/
theorem mem_typesIn {path : Path} {d : TypeDefinition} :
    (path, d) ∈ typesIn ds ↔ (path, .type d) ∈ ds :=
  mem_view fun x path d => by
    obtain ⟨path', d'⟩ := x
    cases d' <;> simp [WrittenDefinition.type?]

variable {ds} in
/-- A type is extended if the extension is written. -/
theorem mem_extensionsIn {path : Path} {e : TypeExtension} :
    (path, e) ∈ extensionsIn ds ↔ (path, .extension e) ∈ ds :=
  mem_view fun x path e => by
    obtain ⟨path', d⟩ := x
    cases d <;> simp [WrittenDefinition.extension?]

variable {ds} in
/-- A directive is defined if its definition is written. -/
theorem mem_directivesIn {path : Path} {d : DirectiveDefinition} :
    (path, d) ∈ directivesIn ds ↔ (path, .directive d) ∈ ds :=
  mem_view fun x path d => by
    obtain ⟨path', d'⟩ := x
    cases d' <;> simp [WrittenDefinition.directive?]

variable (ds' : List WrittenDefinition)

/-- The definitions of types in two lists. -/
@[simp]
theorem typesIn_append : typesIn (ds ++ ds') = typesIn ds ++ typesIn ds' :=
  List.filterMap_append

/-- The names of the types that are defined in two lists. -/
@[simp]
theorem typeNamesIn_append : typeNamesIn (ds ++ ds') = typeNamesIn ds ++ typeNamesIn ds' := by
  rw [typeNamesIn, typesIn_append, List.map_append]
  rfl

/-- The extensions of types in two lists. -/
@[simp]
theorem extensionsIn_append : extensionsIn (ds ++ ds') = extensionsIn ds ++ extensionsIn ds' :=
  List.filterMap_append

/-- The definitions of directives in two lists. -/
@[simp]
theorem directivesIn_append : directivesIn (ds ++ ds') = directivesIn ds ++ directivesIn ds' :=
  List.filterMap_append

/-- The roots that the schema blocks in two lists declare. -/
@[simp]
theorem rootsIn_append : rootsIn (ds ++ ds') = rootsIn ds ++ rootsIn ds' :=
  List.flatMap_append

end Views

/-- The extensions among some definitions before which the type has been defined, if `late` holds,
or else those before which it has not. The types in `known` count as defined from the beginning. -/
def extensionsFrom (late : Bool) (known : List String) :
    List WrittenDefinition → List (Path × TypeExtension)
  | [] => []
  | (_, .type d) :: ds => extensionsFrom late (known ++ [d.name]) ds
  | (path, .extension e) :: ds =>
    if decide (e.name ∈ known) = late then (path, e) :: extensionsFrom late known ds
    else extensionsFrom late known ds
  | (_, .schema _) :: ds | (_, .directive _) :: ds => extensionsFrom late known ds

/-- The names of the built-in scalars. -/
def builtInNames : List String := BuiltInScalar.all.map BuiltInScalar.name

/-- The extensions that come after the definition of their type. -/
def lateExtensions (ds : List WrittenDefinition) : List (Path × TypeExtension) :=
  extensionsFrom true builtInNames ds

/-- The extensions that come before the definition of their type, or have none. -/
def earlyExtensions (ds : List WrittenDefinition) : List (Path × TypeExtension) :=
  extensionsFrom false builtInNames ds

/-- Whether an extension is late depends on the types that are defined before it. -/
theorem extensionsFrom_append (late : Bool) (known : List String)
    (ds ds' : List WrittenDefinition) :
    extensionsFrom late known (ds ++ ds') =
      extensionsFrom late known ds ++ extensionsFrom late (known ++ typeNamesIn ds) ds' := by
  -- the types that are known grow along the first list
  induction ds generalizing known with
  | nil =>
    rw [typeNamesIn, typesIn, List.filterMap_nil, List.map_nil, List.append_nil]
    rfl
  | cons x ds ih =>
    obtain ⟨path, d⟩ := x
    cases d with
    | type d =>
      rw [List.cons_append, extensionsFrom, extensionsFrom, ih, List.append_assoc]
      rfl
    | extension e =>
      rw [List.cons_append, extensionsFrom, extensionsFrom, ih]
      split <;> rfl
    | schema _ | directive _ => exact ih known

section Concat

variable {x : WrittenDefinition} (ds : List WrittenDefinition)

/-- Only the definition of a type defines a further type. -/
theorem typesIn_concat_of_none (h : x.type? = none) : typesIn (ds ++ [x]) = typesIn ds := by
  rw [typesIn_append, typesIn, typesIn, List.filterMap_cons_none h]
  exact List.append_nil _

/-- Only an extension is a further extension. -/
theorem extensionsFrom_concat_of_none (h : x.extension? = none) (late : Bool)
    (known : List String) :
    extensionsFrom late known (ds ++ [x]) = extensionsFrom late known ds := by
  rw [extensionsFrom_append]
  obtain ⟨path, d⟩ := x
  cases d with
  | extension e => exact nomatch h
  | _ => exact List.append_nil _

/-- Only the definition of a directive defines a further directive. -/
theorem directivesIn_concat_of_none (h : x.directive? = none) :
    directivesIn (ds ++ [x]) = directivesIn ds := by
  rw [directivesIn_append, directivesIn, directivesIn, List.filterMap_cons_none h]
  exact List.append_nil _

/-- Only a schema block declares further roots. -/
theorem rootsIn_concat_of_nil (h : x.roots = []) : rootsIn (ds ++ [x]) = rootsIn ds := by
  rw [rootsIn_append, rootsIn, rootsIn, List.flatMap_singleton, h, List.append_nil]

end Concat

/-- A schema block declares its roots after those that are declared before it. -/
theorem rootsIn_concat_schema (ds : List WrittenDefinition) (path : Path) (d : SchemaBlock) :
    rootsIn (ds ++ [(path, .schema d)]) = rootsIn ds ++ d.roots path := by
  rw [rootsIn_append, rootsIn, rootsIn, List.flatMap_singleton]
  rfl

/-- An extension at the end is late if its type has been defined, and else early. -/
theorem extensionsFrom_concat (late : Bool) (known : List String) (ds : List WrittenDefinition)
    (path : Path) (e : TypeExtension) :
    extensionsFrom late known (ds ++ [(path, .extension e)]) =
      extensionsFrom late known ds ++
        if decide (e.name ∈ known ++ typeNamesIn ds) = late then [(path, e)] else [] := by
  rw [extensionsFrom_append, extensionsFrom]
  rfl

/-- Every extension is either late or early. -/
theorem perm_extensionsIn (known : List String) (ds : List WrittenDefinition) :
    (extensionsFrom true known ds ++ extensionsFrom false known ds).Perm (extensionsIn ds) := by
  induction ds generalizing known with
  | nil => exact .nil
  | cons x ds ih =>
    obtain ⟨path, d⟩ := x
    cases d with
    | type d => exact ih _
    | extension e =>
      show List.Perm _ ((path, e) :: extensionsIn ds)
      rw [extensionsFrom, extensionsFrom]
      -- an extension is put in front of the late ones or in front of the early ones
      by_cases h : e.name ∈ known
      · rw [if_pos (decide_eq_true h), if_neg (by simp [h]), List.cons_append]
        exact (ih known).cons _
      · rw [if_neg (by simp [h]), if_pos (decide_eq_false h)]
        exact List.perm_middle.trans ((ih known).cons _)
    | schema _ | directive _ => exact ih known

end GraphQLCheck
