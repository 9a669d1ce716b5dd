import GraphQLCheck.Proofs.Document.GivenArguments
import GraphQLCheck.Proofs.Traversal.CarriedType
import GraphQLCheck.Proofs.Traversal.LocalRules

/-!
# Which arguments are unknown

The rule on known argument names looks an argument up on the stacks of types in effect, and decides
by a stack of its own whether the argument is given to a field or to a directive. What it finds can
be told without stacks: the fields and directives of a document that have definitions are listed
together with these (`Document.knownOwners`), and each argument is looked up in the definition of
what it is given to.

Main statement: the rule finds just the arguments that are not defined there
(`knownArgumentNames_errors_eq`).
-/

namespace GraphQLCheck

open Rules.KnownArgumentNames

/-- A field or directive of a document that has a definition, as far as its arguments matter. -/
structure KnownOwner where
  position : Position
  arguments : List Argument
  /-- The parameters of the definition. -/
  parameters : OrderedMap InputDef
  /-- The message for an argument with a name that no parameter has. -/
  message : String → String

namespace KnownOwner

/-- Whether no parameter has the name of an argument. -/
def lacks (o : KnownOwner) (a : Argument) : Bool := (o.parameters.get? a.name).isNone

/-- The error for an argument that is unknown. -/
def error (o : KnownOwner) (a : Argument) : ValidationError :=
  ⟨o.message a.name, [.argument a], [o.position]⟩

/-- The errors for all arguments that are unknown. -/
def errors (o : KnownOwner) : List ValidationError := (o.arguments.filter o.lacks).map o.error

/-- Each argument gives rise to one error or to none. -/
theorem errors_eq_flatMap (o : KnownOwner) :
    o.errors = o.arguments.flatMap fun a => if o.lacks a then [o.error a] else [] := by
  rw [errors]
  induction o.arguments with
  | nil => rfl
  | cons a rest ih =>
    rw [List.filter_cons, List.flatMap_cons, ← ih]
    split <;> rfl

end KnownOwner

section

variable (s : Schema)

/-- A directive that the schema defines, or a field that is selected on a known type and that this
type has. -/
def Node.knownOwner? (parent : Option NamedType) : Node → Option KnownOwner
  | .directive d => (s.directive? d.name).map fun definition =>
    ⟨d.position, d.arguments, definition.parameters, (directiveMessage · definition.name)⟩
  | .field f => parent.bind fun type => (s.field? type f.name).map fun definition =>
    ⟨f.position, f.arguments, definition.parameters, (fieldMessage · f.name type.name)⟩
  | _ => none

/-- The fields and directives of a document that have definitions, in the order of the document. -/
def Document.knownOwners (doc : Document) : List KnownOwner :=
  ((Node.document doc).typedSubtree s none).filterMap fun (parent, n) => n.knownOwner? s parent

end

namespace Rules.KnownArgumentNames

variable {s : Schema} {chain : List Node} {parent : Option NamedType} {n : Node}

/-- What the rule finds at a node by itself, given the nodes around it. -/
def finds (s : Schema) (chain : List Node) (n : Node) : List ValidationError :=
  match n with
  | .argument a =>
    if (typesAlong s (n :: chain)).argument?.isNone then
      errors (typesAlong s (n :: chain)) (chain.filter isOwner) a
    else []
  | _ => []

/-- The response to what is found at a node. -/
def respond : List ValidationError → Response
  | [] => .proceed
  | es => .report es

/-- Whatever is found is reported. -/
theorem respond_of_ne_nil {es : List ValidationError} (h : es ≠ []) : respond es = .report es := by
  cases es with
  | nil => exact absurd rfl h
  | cons => rfl

/-- The rule responds to what it finds at an argument. -/
theorem enter_argument (ctx : Context) (a : Argument) (owners : List Node) :
    enter ctx (.argument a) owners =
      (owners, respond (if ctx.types.argument?.isNone then errors ctx.types owners a else [])) := by
  rw [enter]
  split
  · cases errors ctx.types owners a <;> rfl
  · rfl

/-- The rule remembers the fields and directives around a node. -/
theorem visitor_local (s : Schema) (doc : Document) :
    knownArgumentNames.visitor.Local s doc (List.filter isOwner) (finds s) where
  visitsSpreads := rfl
  proceed chain n h := by
    cases n with
    | argument a => exact (enter_argument _ a _).trans (congrArg (_, respond ·) h)
    | _ => rfl
  report chain n h := by
    cases n with
    | argument a =>
      exact (enter_argument _ a _).trans (congrArg (Prod.mk _) (respond_of_ne_nil h))
    | _ => exact absurd rfl h
  leave chain n := by
    show (leave n ((n :: chain).filter isOwner), []) = _
    rw [leave, List.filter_cons]
    split <;> rfl

/-- What is found at an argument depends on the definition of what is given it. -/
theorem finds_argument (h : CarriesTo s chain parent n) (hn : isOwner n = true) (a : Argument) :
    finds s (n :: chain) (.argument a) = (n.knownOwner? s parent).elim [] fun o =>
      if o.lacks a then [.ofNodes (o.message a.name) [.argument a]] else [] := by
  -- the innermost field or directive around an argument is the node that is given it
  cases n with
  | directive d =>
    have hdirective : (typesAlong s (.argument a :: .directive d :: chain)).directive? =
        s.directive? d.name := rfl
    have hargument : (typesAlong s (.argument a :: .directive d :: chain)).argument? =
        (s.directive? d.name).bind (·.parameters.get? a.name) := rfl
    simp only [finds, hargument, List.filter_cons, isOwner, if_true, errors, hdirective,
      Node.knownOwner?]
    cases s.directive? d.name <;> rfl
  | field f =>
    obtain ⟨hcarries, hset⟩ := h rfl
    have hparent : (typesAlong s (.argument a :: .field f :: chain)).parentType? = parent :=
      hcarries.parentType (hset f rfl)
    have hfield : (typesAlong s (.argument a :: .field f :: chain)).field? =
        parent.bind (s.field? · f.name) := hcarries.field? (hset f rfl) f
    -- outside directives an argument is looked up in the field
    have hargument : (typesAlong s (.argument a :: .field f :: chain)).argument? =
        (parent.bind (s.field? · f.name)).bind (·.parameters.get? a.name) := by
      have hdirectives : (typesAlong s (.field f :: chain)).directives = [] := hcarries.directives
      show (typesAlong s (.field f :: chain)).argumentDef a.name = _
      rw [TypeState.argumentDef, hdirectives, ← hfield]
      rfl
    simp only [finds, hargument, List.filter_cons, isOwner, if_true, errors, hfield, hparent,
      Node.knownOwner?]
    cases parent with
    | none => rfl
    | some type =>
      rw [Option.bind_some, Option.bind_some]
      cases s.field? type f.name <;> rfl
  | _ => exact absurd hn Bool.false_ne_true

/-- Below a value, nothing is found. -/
theorem foundBelow_ofValue (s : Schema) (chain : List Node) (v : Value) :
    foundBelow (finds s) chain (.ofValue v) = [] := by
  refine foundBelow_eq_nil chain _ fun m hm chain => ?_
  have hliteral := Node.isLiteral_of_mem_subtree hm
  cases m with
  | argument a => exact nomatch hliteral
  | _ => rfl

/-- A field or directive that has a definition is at its place, and its arguments are those that it
is given. -/
theorem of_knownOwner? {o : KnownOwner} (h : n.knownOwner? s parent = some o) :
    n.position? = some o.position ∧ n.givenArguments = o.arguments := by
  cases n with
  | directive d =>
    obtain ⟨definition, -, rfl⟩ := Option.map_eq_some_iff.1 h
    exact ⟨rfl, rfl⟩
  | field f =>
    obtain ⟨type, -, h⟩ := Option.bind_eq_some_iff.1 h
    obtain ⟨definition, -, rfl⟩ := Option.map_eq_some_iff.1 h
    exact ⟨rfl, rfl⟩
  | _ => exact nomatch h

/-- What is found at an argument and below it. -/
theorem foundBelow_argument (h : CarriesTo s chain parent n) (hn : isOwner n = true)
    (a : Argument) :
    foundBelow (finds s) (n :: chain) (.argument a) = (n.knownOwner? s parent).elim [] fun o =>
      if o.lacks a then [o.error a] else [] := by
  have hfinds := finds_argument h hn a
  have hnothing (hnil : finds s (n :: chain) (.argument a) = []) :
      foundBelow (finds s) (n :: chain) (.argument a) = [] := by
    rw [foundBelow_of_nil hnil, Node.children, List.flatMap_singleton, foundBelow_ofValue]
  cases howner : n.knownOwner? s parent with
  | none => exact hnothing (by rw [hfinds, howner]; rfl)
  | some o =>
    rw [howner, Option.elim_some] at hfinds
    rw [Option.elim_some]
    by_cases hlacks : o.lacks a = true
    · rw [if_pos hlacks] at hfinds ⊢
      -- an argument has no place, so that the error is where the field or directive is
      have hplace : nearestPosition (.argument a) (n :: chain) = some o.position := by
        rw [nearestPosition, List.findSome?_cons, List.findSome?_cons, (of_knownOwner? howner).1]
        rfl
      rw [foundBelow_of_ne_nil (hfinds ▸ List.cons_ne_nil _ _), hfinds, hplace]
      rfl
    · rw [if_neg hlacks] at hfinds ⊢
      exact hnothing hfinds

/-- What is found in the arguments that a node is given. -/
theorem flatMap_foundBelow_arguments (h : CarriesTo s chain parent n) :
    (n.givenArguments.map Node.argument).flatMap (foundBelow (finds s) (n :: chain)) =
      (n.knownOwner? s parent).elim [] KnownOwner.errors := by
  by_cases hn : isOwner n = true
  · rw [List.flatMap_map, List.flatMap_congr fun a _ => foundBelow_argument h hn a]
    cases howner : n.knownOwner? s parent with
    | none => exact List.flatMap_eq_nil_iff.2 fun _ _ => rfl
    | some o =>
      rw [(of_knownOwner? howner).2]
      exact o.errors_eq_flatMap.symm
  · cases n with
    | field _ | directive _ => exact absurd rfl hn
    | _ => rfl

/-- The errors for the arguments of those of some nodes that have definitions. -/
def errorsIn (s : Schema) (places : List (Option NamedType × Node)) : List ValidationError :=
  (places.filterMap fun (parent, n) => n.knownOwner? s parent).flatMap KnownOwner.errors

/-- The errors for a node and for other nodes. -/
theorem errorsIn_cons (s : Schema) (parent : Option NamedType) (n : Node)
    (places : List (Option NamedType × Node)) :
    errorsIn s ((parent, n) :: places) =
      (n.knownOwner? s parent).elim [] KnownOwner.errors ++ errorsIn s places := by
  rw [errorsIn, List.filterMap_cons]
  dsimp only
  cases n.knownOwner? s parent <;> rfl

/-- The errors for several lists of nodes. -/
theorem errorsIn_flatMap {ns : List Node} {f : Node → List (Option NamedType × Node)} :
    errorsIn s (ns.flatMap f) = ns.flatMap fun n => errorsIn s (f n) := by
  simp only [errorsIn, List.filterMap_flatMap, List.flatMap_assoc]

/-- There are no errors for what is below an argument. -/
theorem errorsIn_typedSubtree_argument (s : Schema) (parent : Option NamedType) (a : Argument) :
    errorsIn s ((Node.argument a).typedSubtree s parent) = [] := by
  have hnone : ((Node.argument a).typedSubtree s parent).filterMap
      (fun (parent, n) => n.knownOwner? s parent) = [] := by
    refine List.filterMap_eq_nil_iff.2 fun place hplace => ?_
    have hmem : place.2 ∈ (Node.argument a).subtree :=
      Node.map_snd_typedSubtree s parent _ ▸ List.mem_map_of_mem hplace
    obtain ⟨parent', m⟩ := place
    rcases Node.eq_or_isLiteral_of_mem_argument hmem with rfl | hliteral
    · rfl
    · cases m with
      | field _ | directive _ => exact nomatch hliteral
      | _ => rfl
  rw [errorsIn, hnone, List.flatMap_nil]

/-- In a node that is no argument, what is found are the errors for the nodes below it. -/
theorem foundBelow_eq_errorsIn (chain : List Node) (parent : Option NamedType) (n : Node)
    (h : CarriesTo s chain parent n) (hn : ∀ a, n ≠ .argument a) :
    foundBelow (finds s) chain n = errorsIn s (n.typedSubtree s parent) := by
  -- the arguments of the node come first, with no further fields or directives below them
  obtain ⟨others, hchildren, hothers⟩ := n.children_eq_arguments_append
  have hnil : finds s chain n = [] := by
    cases n with
    | argument a => exact absurd rfl (hn a)
    | _ => rfl
  have harguments : (n.givenArguments.map Node.argument).flatMap
      (fun c => errorsIn s (c.typedSubtree s (s.typeInside parent n))) = [] := by
    refine List.flatMap_eq_nil_iff.2 fun c hc => ?_
    obtain ⟨a, -, rfl⟩ := List.mem_map.1 hc
    exact errorsIn_typedSubtree_argument s _ a
  have hbelow : ∀ c ∈ others, foundBelow (finds s) (n :: chain) c =
      errorsIn s (c.typedSubtree s (s.typeInside parent n)) := fun c hc => by
    have hmem : c ∈ n.children := hchildren ▸ List.mem_append_right _ hc
    exact foundBelow_eq_errorsIn (n :: chain) _ c (h.child hmem) (hothers c hc)
  rw [foundBelow_of_nil hnil, Node.typedSubtree_eq, errorsIn_cons, errorsIn_flatMap, hchildren,
    List.flatMap_append, List.flatMap_append, flatMap_foundBelow_arguments h, harguments,
    List.nil_append, List.flatMap_congr hbelow]
termination_by sizeOf n
decreasing_by exact Node.sizeOf_lt_of_mem_children hmem

end Rules.KnownArgumentNames

/-- The rule on known argument names finds, in the order of the document, the arguments of each
field and each directive with a definition that no parameter of this very definition has the name
of, and nothing else. -/
theorem knownArgumentNames_errors_eq (s : Schema) (doc : Document) :
    s.validateWithRules doc [Rules.knownArgumentNames] =
      (doc.knownOwners s).flatMap KnownOwner.errors := by
  rw [Rule.errors_eq_foundBelow (Rules.KnownArgumentNames.visitor_local s doc) rfl]
  exact Rules.KnownArgumentNames.foundBelow_eq_errorsIn [] none (.document doc)
    (carriesTo_document s doc) nofun

end GraphQLCheck
