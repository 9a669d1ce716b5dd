import GraphQLCheck.Proofs.Document.GivenArguments
import GraphQLCheck.Proofs.Traversal.LocalRules
import GraphQLCheck.Validation.Rules.KnownFragmentNames
import GraphQLCheck.Validation.Rules.KnownTypeNames
import Mathlib.Data.List.Basic

/-!
# Which names are unknown

A document names types and fragments: the types of variables have a name at their core, fragments
may have a type as their condition, and spreads name fragments. `Document.writtenNames` lists these
names by structural recursion over the definitions and selections, in the order in which they are
written.

Main statements: a look at the names finds what it finds at the written names
(`WrittenName.foundBelow_document`), and so the rules on known type names and known fragment names
find just the written names that are not defined (`nameRules_errors_eq`).
-/

namespace GraphQLCheck

open Rules

/-- A name that a document writes of a type or of a fragment. -/
inductive WrittenName where
  /-- The name of a type, at the place of the variable or the fragment that it belongs to. -/
  | type (name : String) (place : Position)
  | spread (s : FragmentSpread)

namespace WrittenName

/-- The node of a name. -/
def node : WrittenName → Node
  | type name _ => .namedType name
  | spread s => .fragmentSpread s

/-- Where a name is. -/
def place : WrittenName → Position
  | type _ place => place
  | spread s => s.position

/-- The error for the name of a type that a schema does not define. -/
def unknownTypeError? (s : Schema) : WrittenName → Option ValidationError
  | type name place =>
    if (s.type? name).isNone then some ⟨unknownTypeMessage name, [.namedType name], [place]⟩
    else none
  | spread _ => none

/-- The error for a spread whose name no fragment of a document bears. -/
def unknownFragmentError? (doc : Document) : WrittenName → Option ValidationError
  | type _ _ => none
  | spread s =>
    if ∀ d ∈ doc.fragments, d.name ≠ s.name then
      some ⟨unknownFragmentMessage s.name, [.fragmentSpread s], [s.position]⟩
    else none

end WrittenName

mutual

/-- The names that are written in a field. -/
def Field.writtenNames : Field → List WrittenName
  | ⟨_, _, _, _, _, set⟩ => set.writtenNames

/-- The names that are written in a selection set. -/
def SelectionSet.writtenNames : SelectionSet → List WrittenName
  | ⟨_, _, items⟩ => writtenNamesIn items

/-- The names that are written in an inline fragment: its condition comes first, if it has one. -/
def InlineFragment.writtenNames : InlineFragment → List WrittenName
  | ⟨position, condition, _, set⟩ => condition.toList.map (.type · position) ++ set.writtenNames

/-- The names that are written in a selection. -/
def Selection.writtenNames : Selection → List WrittenName
  | .field f => f.writtenNames
  | .spread s => [.spread s]
  | .inline f => f.writtenNames

/-- The names that are written in some selections. -/
def writtenNamesIn : List Selection → List WrittenName
  | [] => []
  | x :: xs => x.writtenNames ++ writtenNamesIn xs

end

/-- The name at the core of the type of a variable. -/
def VariableDefinition.writtenType (v : VariableDefinition) : WrittenName :=
  .type v.type.coreName v.position

/-- The names that are written in a definition. -/
def Definition.writtenNames : Definition → List WrittenName
  | .operation d =>
    d.variableDefinitions.map VariableDefinition.writtenType ++ d.selectionSet.writtenNames
  | .fragment d => .type d.typeCondition d.position :: d.selectionSet.writtenNames

/-- The names that are written in a document. -/
def Document.writtenNames (doc : Document) : List WrittenName :=
  doc.definitions.flatMap Definition.writtenNames

/-- Nothing is written in a selection set without items. -/
theorem writtenNames_of_empty {set : SelectionSet} (h : set.items = []) :
    set.writtenNames = [] := by
  obtain ⟨position, closing, items⟩ := set
  obtain rfl : items = [] := h
  rfl

/-- Whether a node is the name of a type, or the spread of a fragment. -/
def Node.isName : Node → Bool
  | fragmentSpread _ | namedType _ => true
  | _ => false

/-- What is given has no names in it. -/
theorem Node.isName_of_isGiven {n : Node} (h : n.isGiven = true) : n.isName = false := by
  cases n with
  | fragmentSpread _ | namedType _ => exact nomatch h
  | _ => rfl

namespace WrittenName

/-- What is found at a node where names alone are looked at. -/
def atNames (look : Node → List ValidationError) (_chain : List Node) (n : Node) :
    List ValidationError :=
  if n.isName then look n else []

/-- What is found at a written name, located there. -/
def found (look : Node → List ValidationError) (w : WrittenName) : List ValidationError :=
  (look w.node).map (·.orLocatedAt (some w.place))

section FoundBelow

variable {look : Node → List ValidationError}

/-- A look at the names finds nothing in what is given. -/
theorem flatMap_foundBelow_of_isGiven {ns : List Node} (hns : ∀ n ∈ ns, n.isGiven = true)
    (chain : List Node) : ns.flatMap (foundBelow (atNames look) chain) = [] :=
  flatMap_foundBelow_eq_nil (fun _ _ => Node.isGiven_of_mem_children)
    (fun _ hn _ => if_neg (Bool.eq_false_iff.1 (Node.isName_of_isGiven hn))) hns chain

/-- What is found in directives and in what comes after them. -/
theorem flatMap_foundBelow_directives (directives : List Directive) (ns chain : List Node) :
    (directives.map Node.directive ++ ns).flatMap (foundBelow (atNames look) chain) =
      ns.flatMap (foundBelow (atNames look) chain) := by
  have hgiven : ∀ n ∈ directives.map Node.directive, n.isGiven = true := fun n hn => by
    obtain ⟨d, -, rfl⟩ := List.mem_map.1 hn
    rfl
  rw [List.flatMap_append, flatMap_foundBelow_of_isGiven hgiven, List.nil_append]

/-- In a type there is one name, at its core. It is where the thing is that has the type. -/
theorem foundBelow_type {chain : List Node} {place : Position}
    (hplace : chain.findSome? Node.position? = some place) (t : TypeExpr) :
    foundBelow (atNames look) chain (.ofType t) =
      (type t.coreName place).found look := by
  -- the marks around the name have no place of their own
  induction t generalizing chain with
  | named name =>
    have hnearest : nearestPosition (.namedType name) chain = some place := hplace
    rw [Node.ofType, foundBelow_of_children rfl, hnearest]
    rfl
  | list item ih | nonNull item ih =>
    rw [Node.ofType, foundBelow_of_nil rfl, Node.children, List.flatMap_singleton]
    exact ih hplace

/-- In the definition of a variable there is one name, at the core of its type. -/
theorem foundBelow_variableDefinition (chain : List Node) (v : VariableDefinition) :
    foundBelow (atNames look) chain (.variableDefinition v) = v.writtenType.found look := by
  have hgiven : ∀ n ∈ v.defaultValue.toList.map Node.ofValue, n.isGiven = true := fun n hn => by
    obtain ⟨value, -, rfl⟩ := List.mem_map.1 hn
    exact Node.isGiven_of_isLiteral (Node.isLiteral_ofValue value)
  have hname (chain : List Node) : foundBelow (atNames look) chain (.variable v.name) = [] :=
    foundBelow_of_nil rfl
  rw [foundBelow_of_nil rfl, Node.children, List.flatMap_append,
    flatMap_foundBelow_of_isGiven hgiven, List.append_nil, List.flatMap_cons, hname,
    List.nil_append, List.flatMap_singleton]
  exact foundBelow_type rfl v.type

-- the cases are those of the recursion that lists the names
mutual

/-- In a field, a look at the names finds what it finds at the written names. -/
theorem foundBelow_field : ∀ (f : Field) (chain : List Node),
    foundBelow (atNames look) chain (.field f) = f.writtenNames.flatMap (·.found look)
  | ⟨position, aliasName, name, arguments, directives, set⟩, chain => by
    have hgiven : ∀ n ∈ arguments.map Node.argument, n.isGiven = true := fun n hn => by
      obtain ⟨a, -, rfl⟩ := List.mem_map.1 hn
      rfl
    rw [foundBelow_of_nil rfl, Node.children, List.append_assoc, List.flatMap_append,
      flatMap_foundBelow_of_isGiven hgiven, List.nil_append, flatMap_foundBelow_directives,
      Field.writtenNames]
    split
    next hitems => rw [writtenNames_of_empty hitems]; rfl
    next => rw [List.flatMap_singleton, foundBelow_selectionSet set]

/-- In a selection set, a look at the names finds what it finds at the written names. -/
theorem foundBelow_selectionSet : ∀ (set : SelectionSet) (chain : List Node),
    foundBelow (atNames look) chain (.selectionSet set) = set.writtenNames.flatMap (·.found look)
  | ⟨position, closing, items⟩, chain => by
    rw [foundBelow_of_nil rfl, SelectionSet.writtenNames]
    exact flatMap_foundBelow_selections items _

/-- In an inline fragment, a look at the names finds what it finds at the written names. -/
theorem foundBelow_inlineFragment : ∀ (f : InlineFragment) (chain : List Node),
    foundBelow (atNames look) chain (.inlineFragment f) = f.writtenNames.flatMap (·.found look)
  | ⟨position, condition, directives, set⟩, chain => by
    rw [foundBelow_of_nil rfl, Node.children, List.append_assoc, List.flatMap_append,
      flatMap_foundBelow_directives, List.flatMap_singleton, foundBelow_selectionSet set,
      InlineFragment.writtenNames, List.flatMap_append]
    congr 1
    cases condition with
    | none => rfl
    | some name => exact congrArg (· ++ []) (foundBelow_type rfl (.named name))

/-- In a selection, a look at the names finds what it finds at the written names. -/
theorem foundBelow_selection : ∀ (x : Selection) (chain : List Node),
    foundBelow (atNames look) chain (.ofSelection x) = x.writtenNames.flatMap (·.found look)
  | .field f, chain => foundBelow_field f chain
  | .spread s, chain => by
    -- the spread itself is a name, and it has only directives in it
    have hdirectives : (Node.fragmentSpread s).children.flatMap
        (foundBelow (atNames look) (.fragmentSpread s :: chain)) = [] := by
      rw [Node.children, ← List.append_nil (s.directives.map _), flatMap_foundBelow_directives,
        List.flatMap_nil]
    rw [Node.ofSelection, foundBelow_of_children hdirectives, Selection.writtenNames,
      List.flatMap_singleton]
    rfl
  | .inline f, chain => foundBelow_inlineFragment f chain

/-- In some selections, a look at the names finds what it finds at the written names. -/
theorem flatMap_foundBelow_selections : ∀ (xs : List Selection) (chain : List Node),
    (xs.map Node.ofSelection).flatMap (foundBelow (atNames look) chain) =
      (writtenNamesIn xs).flatMap (·.found look)
  | [], _ => rfl
  | x :: xs, chain => by
    rw [List.map_cons, List.flatMap_cons, foundBelow_selection x, flatMap_foundBelow_selections xs,
      writtenNamesIn, List.flatMap_append]

end

/-- In a definition, a look at the names finds what it finds at the written names. -/
theorem foundBelow_definition (chain : List Node) (d : Definition) :
    foundBelow (atNames look) chain (.ofDefinition d) = d.writtenNames.flatMap (·.found look) := by
  cases d with
  | operation d =>
    rw [Node.ofDefinition, foundBelow_of_nil rfl, Node.children, List.append_assoc,
      List.flatMap_append, flatMap_foundBelow_directives, List.flatMap_singleton,
      foundBelow_selectionSet, Definition.writtenNames, List.flatMap_append, List.flatMap_map,
      List.flatMap_map]
    congr 1
    exact List.flatMap_congr fun v _ => foundBelow_variableDefinition _ v
  | fragment d =>
    have hcondition : foundBelow (atNames look) (.fragmentDefinition d :: chain)
        (.namedType d.typeCondition) = (type d.typeCondition d.position).found look :=
      foundBelow_type rfl (.named d.typeCondition)
    rw [Node.ofDefinition, foundBelow_of_nil rfl, Node.children, List.cons_append,
      List.flatMap_cons, flatMap_foundBelow_directives, List.flatMap_singleton,
      foundBelow_selectionSet, Definition.writtenNames, List.flatMap_cons]
    exact congrArg (· ++ _) hcondition

/-- In a document, a look at the names finds what it finds at the written names. -/
theorem foundBelow_document (doc : Document) :
    foundBelow (atNames look) [] (.document doc) = doc.writtenNames.flatMap (·.found look) := by
  rw [foundBelow_of_nil rfl, Node.children, List.flatMap_map, Document.writtenNames,
    List.flatMap_assoc]
  exact List.flatMap_congr fun d _ => foundBelow_definition _ d

end FoundBelow

end WrittenName

open WrittenName

/-- A check that looks at names alone, and not at what is around them, finds what it finds at the
written names. -/
theorem ofCheck_errors_eq_filterMap {s : Schema} {doc : Document} {name : String}
    {check : Context → Node → List ValidationError} {error? : WrittenName → Option ValidationError}
    (hcheck : ∀ chain n, check (.along s doc chain n) n =
      atNames (fun n => check (.along s doc [] n) n) chain n)
    (herror : ∀ w : WrittenName,
      w.found (fun n => check (.along s doc [] n) n) = (error? w).toList) :
    s.validateWithRules doc [.ofCheck name check] = doc.writtenNames.filterMap error? := by
  have hlocal := Visitor.local_ofCheck s doc check
  rw [funext₂ hcheck] at hlocal
  rw [Rule.errors_eq_foundBelow hlocal rfl, foundBelow_document,
    List.filterMap_eq_flatMap_toList]
  exact List.flatMap_congr fun w _ => herror w

/-- The rule on known type names finds the written types that the schema does not define. -/
theorem knownTypeNames_errors_eq (s : Schema) (doc : Document) :
    s.validateWithRules doc [knownTypeNames] =
      doc.writtenNames.filterMap (·.unknownTypeError? s) := by
  refine ofCheck_errors_eq_filterMap (fun _ n => by cases n <;> rfl) fun w => ?_
  cases w with
  | type name place =>
    rw [WrittenName.unknownTypeError?, WrittenName.found]
    show List.map _ (if (s.type? name).isNone = true then _ else _) = _
    split <;> rfl
  | spread x => rfl

/-- A name stands for no fragment just if no fragment of the document bears it. -/
theorem Document.fragment?_isNone_iff {doc : Document} {name : String} :
    (doc.fragment? name).isNone = true ↔ ∀ d ∈ doc.fragments, d.name ≠ name := by
  rw [Option.isNone_iff_eq_none, Document.fragment?, List.find?_eq_none]
  simp only [List.mem_reverse, decide_eq_true_eq]

/-- The rule on known fragment names finds the spreads whose names no fragment bears. -/
theorem knownFragmentNames_errors_eq (s : Schema) (doc : Document) :
    s.validateWithRules doc [knownFragmentNames] =
      doc.writtenNames.filterMap (·.unknownFragmentError? doc) := by
  refine ofCheck_errors_eq_filterMap (fun _ n => by cases n <;> rfl) fun w => ?_
  cases w with
  | type name place => rfl
  | spread x =>
    simp only [WrittenName.unknownFragmentError?, ← Document.fragment?_isNone_iff]
    rw [WrittenName.found]
    show List.map _ (if (doc.fragment? x.name).isNone = true then _ else _) = _
    split <;> rfl

/-- The rule on known type names finds one error for each written type name that the schema does not
define, and the rule on known fragment names one for each spread whose name no fragment definition
of the document bears. Both find them in the order in which they are written, and nothing else. -/
theorem nameRules_errors_eq (s : Schema) (doc : Document) :
    s.validateWithRules doc [knownTypeNames] =
        doc.writtenNames.filterMap (·.unknownTypeError? s) ∧
      s.validateWithRules doc [knownFragmentNames] =
        doc.writtenNames.filterMap (·.unknownFragmentError? doc) :=
  ⟨knownTypeNames_errors_eq s doc, knownFragmentNames_errors_eq s doc⟩

end GraphQLCheck
