import GraphQLCheck.Validation.Traversal

/-!
# What occurs in a document

`Node.subtree` lists a node with everything below it, in the order of a depth-first walk, and
`occurrences` picks things from the subtrees of some nodes: the variables that are used there, or
the names of the fragments that are spread there. `Document.ReachesName` and `Document.Reaches` say
to which fragments a chain of spreads leads from some nodes.
-/

namespace GraphQLCheck

namespace Node

/-- A node and everything below it, in the order of a depth-first walk. -/
def subtree (n : Node) : List Node :=
  n :: n.children.attach.flatMap fun c => subtree c.1
termination_by sizeOf n
decreasing_by exact sizeOf_lt_of_mem_children c.2

/-- The subtree of a node is the node and the subtrees of its children. -/
theorem subtree_eq (n : Node) : n.subtree = n :: n.children.flatMap subtree := by
  conv => lhs; rw [subtree]
  congr 1
  conv => rhs; rw [← List.attach_map_subtype_val n.children, List.flatMap_map]

/-- The variable that a node is a use of. -/
def usedName? : Node → Option String
  | .variable name => some name
  | _ => none

/-- The name of the fragment that a node spreads. -/
def spreadName? : Node → Option String
  | .fragmentSpread spread => some spread.name
  | _ => none

/-- Whether a node is a type, or part of what a field, a fragment or a directive is given. -/
def isInput : Node → Bool
  | argument _ | directive _ | objectField _ => true
  | booleanValue _ | enumValue _ | floatValue _ | intValue _ | listValue _ | nullValue
  | objectValue _ | stringValue _ | .variable _ => true
  | listType _ | namedType _ | nonNullType _ => true
  | _ => false

/-- Whether a node is a selection, a selection set or part of the input. -/
def isInner : Node → Bool
  | field _ | fragmentSpread _ | inlineFragment _ | selectionSet _ => true
  | n => n.isInput

/-- The node of a value is an input. -/
@[simp]
theorem isInput_ofValue (v : Value) : (ofValue v).isInput = true := by
  cases v <;> rfl

/-- The node of a type is an input. -/
@[simp]
theorem isInput_ofType (t : TypeExpr) : (ofType t).isInput = true := by
  cases t <;> rfl

/-- The node of a selection is an inner one. -/
@[simp]
theorem isInner_ofSelection (x : Selection) : (ofSelection x).isInner = true := by
  cases x <;> rfl

/-- Input is an inner part. -/
theorem isInner_of_isInput {n : Node} (h : n.isInput = true) : n.isInner = true := by
  cases n <;> first | rfl | exact nomatch h

/-- Below input there is nothing but input. -/
theorem isInput_of_mem_children {n c : Node} (hn : n.isInput = true) (hc : c ∈ n.children) :
    c.isInput = true := by
  -- kinds of input first; then those with no children, and those that are no input
  cases n with
  | argument a => rw [List.mem_singleton.1 hc]; exact isInput_ofValue a.value
  | directive d => obtain ⟨a, -, rfl⟩ := List.mem_map.1 hc; rfl
  | objectField f => rw [List.mem_singleton.1 hc]; exact isInput_ofValue f.value
  | listValue items => obtain ⟨v, -, rfl⟩ := List.mem_map.1 hc; exact isInput_ofValue v
  | objectValue fields => obtain ⟨f, -, rfl⟩ := List.mem_map.1 hc; rfl
  | listType item => rw [List.mem_singleton.1 hc]; exact isInput_ofType item
  | nonNullType inner => rw [List.mem_singleton.1 hc]; exact isInput_ofType inner
  | booleanValue _ | enumValue _ | floatValue _ | intValue _ | namedType _ | nullValue
  | stringValue _ | «variable» _ => exact nomatch hc
  | _ => exact nomatch hn

/-- In the definition of a variable there is nothing but input. -/
theorem isInput_of_mem_variableDefinition {d : VariableDefinition} {c : Node}
    (hc : c ∈ (variableDefinition d).children) : c.isInput = true := by
  rcases List.mem_append.1 hc with hc | hc
  · obtain rfl | hc := List.mem_cons.1 hc
    · rfl
    · rw [List.mem_singleton.1 hc]
      exact isInput_ofType d.type
  · obtain ⟨value, -, rfl⟩ := List.mem_map.1 hc
    exact isInput_ofValue value

/-- The parts of a definition without its variable definitions are inner parts. -/
theorem isInner_of_mem_body {directives : List Directive} {set : SelectionSet} {c : Node}
    (hc : c ∈ directives.map directive ++ [selectionSet set]) : c.isInner = true := by
  rcases List.mem_append.1 hc with hc | hc
  · obtain ⟨d, -, rfl⟩ := List.mem_map.1 hc
    rfl
  · rw [List.mem_singleton.1 hc]
    rfl

/-- Below an inner part there is nothing but inner parts. -/
theorem isInner_of_mem_children {n c : Node} (hn : n.isInner = true) (hc : c ∈ n.children) :
    c.isInner = true := by
  by_cases hinput : n.isInput = true
  · exact isInner_of_isInput (isInput_of_mem_children hinput hc)
  -- the four kinds of inner parts that are no input remain
  cases n with
  | field f =>
    rw [children, List.mem_append, List.mem_append] at hc
    obtain (hc | hc) | hc := hc
    · obtain ⟨a, -, rfl⟩ := List.mem_map.1 hc
      rfl
    · obtain ⟨d, -, rfl⟩ := List.mem_map.1 hc
      rfl
    · split at hc
      · exact absurd hc List.not_mem_nil
      · rw [List.mem_singleton.1 hc]
        rfl
  | fragmentSpread s => obtain ⟨d, -, rfl⟩ := List.mem_map.1 hc; rfl
  | inlineFragment f =>
    rw [children, List.append_assoc, List.mem_append] at hc
    obtain hc | hc := hc
    · obtain ⟨name, -, rfl⟩ := List.mem_map.1 hc
      rfl
    · exact isInner_of_mem_body hc
  | selectionSet s => obtain ⟨x, -, rfl⟩ := List.mem_map.1 hc; exact isInner_ofSelection x
  | _ => exact absurd hn hinput

/-- Below the definition of a fragment there is nothing but inner parts. -/
theorem isInner_of_mem_definition {n c : Node} (hn : n.isFragmentDefinition = true)
    (hc : c ∈ n.children) : c.isInner = true := by
  cases n with
  | fragmentDefinition d =>
    rw [children, List.cons_append] at hc
    rcases List.mem_cons.1 hc with rfl | hc
    · rfl
    · exact isInner_of_mem_body hc
  | _ => exact absurd hn Bool.false_ne_true

/-- Only selection sets have fields as children. -/
theorem exists_selectionSet_of_field_mem {n : Node} {f : Field} (h : field f ∈ n.children) :
    ∃ set, n = selectionSet set := by
  have hvalue (v : Value) : ofValue v ≠ field f := by cases v <;> exact nofun
  have htype (t : TypeExpr) : ofType t ≠ field f := by cases t <;> exact nofun
  have hdefinition (d : Definition) : ofDefinition d ≠ field f := by cases d <;> exact nofun
  cases n with
  | selectionSet set => exact ⟨set, rfl⟩
  | _ => simp_all [children, eq_comm]

/-- Only fields and directives have arguments as children. -/
theorem field_or_directive_of_argument_mem {n : Node} {a : Argument} (h : argument a ∈ n.children) :
    (∃ f, n = field f) ∨ ∃ d, n = directive d := by
  have hvalue (v : Value) : ofValue v ≠ argument a := by cases v <;> exact nofun
  have htype (t : TypeExpr) : ofType t ≠ argument a := by cases t <;> exact nofun
  have hselection (x : Selection) : ofSelection x ≠ argument a := by cases x <;> exact nofun
  have hdefinition (d : Definition) : ofDefinition d ≠ argument a := by cases d <;> exact nofun
  cases n with
  | field f => exact .inl ⟨f, rfl⟩
  | directive d => exact .inr ⟨d, rfl⟩
  | _ => simp_all [children, eq_comm]

/-- Only documents have operations as children. -/
theorem exists_document_of_operationDefinition_mem {n : Node} {d : OperationDefinition}
    (h : operationDefinition d ∈ n.children) : ∃ doc, n = document doc := by
  have hvalue (v : Value) : ofValue v ≠ operationDefinition d := by cases v <;> exact nofun
  have htype (t : TypeExpr) : ofType t ≠ operationDefinition d := by cases t <;> exact nofun
  have hselection (x : Selection) : ofSelection x ≠ operationDefinition d := by
    cases x <;> exact nofun
  cases n with
  | document doc => exact ⟨doc, rfl⟩
  | _ => simp_all [children, eq_comm]

/-- A document is the child of no node. -/
theorem document_not_mem_children (n : Node) (doc : Document) : document doc ∉ n.children := by
  have hvalue (v : Value) : ofValue v ≠ document doc := by cases v <;> exact nofun
  have htype (t : TypeExpr) : ofType t ≠ document doc := by cases t <;> exact nofun
  have hselection (x : Selection) : ofSelection x ≠ document doc := by cases x <;> exact nofun
  have hdefinition (d : Definition) : ofDefinition d ≠ document doc := by cases d <;> exact nofun
  cases n <;> simp_all [children, eq_comm]

/-- A fragment that is found under its name is defined in the document. -/
theorem fragmentDefinition_mem_of_fragment? {doc : Document} {name : String}
    {d : FragmentDefinition} (h : doc.fragment? name = some d) :
    fragmentDefinition d ∈ (document doc).children := by
  obtain ⟨hmem, -⟩ := Document.mem_of_fragment? h
  obtain ⟨definition, hdefinition, hfragment⟩ := List.mem_filterMap.1 hmem
  cases definition with
  | operation d' => exact nomatch hfragment
  | fragment d' =>
    obtain rfl := Option.some.inj hfragment
    exact List.mem_map.2 ⟨.fragment d', hdefinition, rfl⟩

/-- What holds of a node and is handed on to children holds of everything below the node. -/
theorem of_mem_subtree {P : Node → Prop} (hP : ∀ n c, P n → c ∈ n.children → P c) {n m : Node}
    (hn : P n) (hm : m ∈ n.subtree) : P m := by
  rw [subtree_eq] at hm
  rcases List.mem_cons.1 hm with rfl | hm
  · exact hn
  · obtain ⟨c, hc, hm⟩ := List.mem_flatMap.1 hm
    exact of_mem_subtree hP (hP n c hn hc) hm
termination_by sizeOf n
decreasing_by exact sizeOf_lt_of_mem_children hc

/-- Everything below input is input. -/
theorem isInput_of_mem_subtree {n m : Node} (hn : n.isInput = true) (hm : m ∈ n.subtree) :
    m.isInput = true :=
  of_mem_subtree (P := fun n => n.isInput = true) (fun _ _ => isInput_of_mem_children) hn hm

end Node

section Occurrences

variable {α : Type}

/-- What is picked from the subtrees of some nodes, in the order of a depth-first walk. -/
def occurrences (pick : Node → Option α) (ns : List Node) : List α :=
  (ns.flatMap Node.subtree).filterMap pick

/-- The variables that are used in some nodes, one for each use. -/
def variablesIn (ns : List Node) : List String := occurrences Node.usedName? ns

/-- The names of the fragments that are spread in some nodes, one for each spread. -/
def spreadNames (ns : List Node) : List String := occurrences Node.spreadName? ns

variable (pick : Node → Option α)

/-- Nothing occurs in no nodes. -/
@[simp]
theorem occurrences_nil : occurrences pick [] = [] := rfl

/-- What occurs in nodes next to each other. -/
theorem occurrences_append (ns ms : List Node) :
    occurrences pick (ns ++ ms) = occurrences pick ns ++ occurrences pick ms := by
  rw [occurrences, List.flatMap_append, List.filterMap_append]
  rfl

/-- What occurs in a node and the nodes after it. -/
theorem occurrences_cons (n : Node) (ns : List Node) :
    occurrences pick (n :: ns) = occurrences pick [n] ++ occurrences pick ns :=
  occurrences_append pick [n] ns

/-- What occurs in a node is the node itself and what occurs in its children. -/
theorem occurrences_singleton (n : Node) :
    occurrences pick [n] = (pick n).toList ++ occurrences pick n.children := by
  rw [occurrences, List.flatMap_singleton, Node.subtree_eq, List.filterMap_cons, occurrences]
  cases pick n <;> rfl

variable {pick}

/-- Nothing occurs where it occurs in none of the nodes. -/
theorem occurrences_eq_nil {ns : List Node} (h : ∀ n ∈ ns, ∀ m ∈ n.subtree, pick m = none) :
    occurrences pick ns = [] := by
  rw [occurrences, List.filterMap_eq_nil_iff]
  intro m hm
  obtain ⟨n, hn, hm⟩ := List.mem_flatMap.1 hm
  exact h n hn m hm

/-- No fragment is spread in input. -/
theorem spreadNames_of_isInput {ns : List Node} (h : ∀ n ∈ ns, n.isInput = true) :
    spreadNames ns = [] := by
  refine occurrences_eq_nil fun n hn m hm => ?_
  have hinput := Node.isInput_of_mem_subtree (h n hn) hm
  cases m with
  | fragmentSpread s => exact nomatch hinput
  | _ => rfl

/-- No fragment is spread in the directives of a definition. -/
theorem spreadNames_body (directives : List Directive) (set : SelectionSet) :
    spreadNames (directives.map .directive ++ [.selectionSet set]) =
      spreadNames [.selectionSet set] := by
  have hdirectives : spreadNames (directives.map .directive) = [] := by
    refine spreadNames_of_isInput fun n hn => ?_
    obtain ⟨d, -, rfl⟩ := List.mem_map.1 hn
    rfl
  rw [spreadNames, occurrences_append, ← spreadNames, hdirectives]
  rfl

/-- No variable is used in a type. -/
theorem variablesIn_ofType (t : TypeExpr) : variablesIn [.ofType t] = [] := by
  induction t with
  | named name => rw [variablesIn, occurrences_singleton]; rfl
  | list item ih => rw [variablesIn, occurrences_singleton]; exact ih
  | nonNull inner ih => rw [variablesIn, occurrences_singleton]; exact ih

end Occurrences

/-- The parts of an operation in which it uses variables. -/
def OperationDefinition.body (d : OperationDefinition) : List Node :=
  d.directives.map .directive ++ [.selectionSet d.selectionSet]

/-- The parts of a fragment in which it uses variables. -/
def FragmentDefinition.body (d : FragmentDefinition) : List Node :=
  d.directives.map .directive ++ [.selectionSet d.selectionSet]

/-- The fragments spread in a definition of a fragment are those spread in its selection set. -/
theorem spreadNames_fragmentDefinition (d : FragmentDefinition) :
    spreadNames [.fragmentDefinition d] = spreadNames [.selectionSet d.selectionSet] := by
  rw [spreadNames, occurrences_singleton]
  show spreadNames (.namedType d.typeCondition :: d.body) = _
  rw [spreadNames, occurrences_cons, occurrences_singleton]
  exact spreadNames_body d.directives d.selectionSet

namespace Document

/-- The operations a document defines, in written order. -/
def operations (doc : Document) : List OperationDefinition :=
  doc.definitions.filterMap fun
    | .operation d => some d
    | .fragment _ => none

/-- Whether no default value of a variable uses a variable itself. -/
def PlainDefaults (doc : Document) : Prop :=
  ∀ operation ∈ doc.operations, ∀ d ∈ operation.variableDefinitions, ∀ value,
    d.defaultValue = some value → variablesIn [.ofValue value] = []

/-- The names to which a chain of spreads leads from some names. -/
inductive ReachesName (doc : Document) (names : List String) : String → Prop where
  | here {name : String} : name ∈ names → ReachesName doc names name
  | through {name next : String} {d : FragmentDefinition} : ReachesName doc names name →
      doc.fragment? name = some d → next ∈ spreadNames [.selectionSet d.selectionSet] →
      ReachesName doc names next

/-- Whether a chain of spreads leads from a selection set to a fragment. -/
def Reaches (doc : Document) (set : SelectionSet) (d : FragmentDefinition) : Prop :=
  ∃ name, doc.ReachesName (spreadNames [.selectionSet set]) name ∧ doc.fragment? name = some d

/-- What is reached from names that are reached is reached. -/
theorem ReachesName.trans {doc : Document} {names names' : List String} {name : String}
    (h : doc.ReachesName names' name) (hnames : ∀ x ∈ names', doc.ReachesName names x) :
    doc.ReachesName names name := by
  -- induction on the chain from the names in the middle
  induction h with
  | here hmem => exact hnames _ hmem
  | through _ hd hnext ih => exact .through ih hd hnext

/-- Nothing is reached from nowhere. -/
theorem not_reachesName_nil (doc : Document) (name : String) : ¬ doc.ReachesName [] name := by
  intro h
  induction h with
  | here hmem => exact nomatch hmem
  | through _ _ _ ih => exact ih

end Document

end GraphQLCheck
