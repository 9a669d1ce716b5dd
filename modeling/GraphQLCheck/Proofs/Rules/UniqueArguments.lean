import GraphQLCheck.Proofs.Document.GivenArguments
import GraphQLCheck.Proofs.Traversal.Independence
import GraphQLCheck.Proofs.Traversal.Paths

/-!
# Which arguments are given again

The rule on unique argument names keeps the arguments in mind that the field or directive being
visited has been given so far. It forgets them when it comes to the next field or directive, and
does not recall them when it is back, so it is right only because the arguments of a node are
visited as one block before everything else in the node.

Main statements: the rule finds the arguments that come after one of the same name in the same list
(`uniqueArgumentNames_errors_eq`), and so it finds nothing if every list has arguments of different
names (`uniqueArgumentNames_errors_eq_nil`).
-/

namespace GraphQLCheck

/-- The arguments of a list that come after an argument of the same name, each with the first of
that name before it. -/
def repeatedArguments (arguments : List Argument) : List (Argument × Argument) :=
  arguments.zipIdx.filterMap fun (a, i) =>
    ((arguments.take i).find? (·.name = a.name)).map (·, a)

/-- The error for an argument that is given again, at the place of what is given it. -/
def repeatedArgumentError (place : Option Position) (first again : Argument) : ValidationError :=
  ⟨Rules.UniqueArgumentNames.message again.name, [.argument first, .argument again], place.toList⟩

/-- The errors for the arguments that a node is given again. -/
def Node.repeatedArgumentErrors (n : Node) : List ValidationError :=
  (repeatedArguments n.givenArguments).map fun (first, again) =>
    repeatedArgumentError n.position? first again

/-- The repeated ones among some arguments, if other arguments come before them. -/
def repeatedAfter (before : List Argument) : List Argument → List (Argument × Argument)
  | [] => []
  | a :: rest =>
    ((before.find? (·.name = a.name)).map (·, a)).toList ++ repeatedAfter (before ++ [a]) rest

/-- Without arguments before them, these are the repeated ones. -/
theorem repeatedAfter_nil (arguments : List Argument) :
    repeatedAfter [] arguments = repeatedArguments arguments := by
  -- the induction needs the arguments before, whose number is the index of the first one
  have hafter (before rest : List Argument) : repeatedAfter before rest =
      (rest.zipIdx before.length).filterMap fun (a, i) =>
        (((before ++ rest).take i).find? (·.name = a.name)).map (·, a) := by
    induction rest generalizing before with
    | nil => rfl
    | cons a rest ih =>
      have hbefore : (before ++ a :: rest).take before.length = before := List.take_left
      rw [repeatedAfter, ih, List.zipIdx_cons, List.filterMap_cons, List.length_append,
        List.length_singleton, List.append_assoc, List.singleton_append]
      simp only [hbefore]
      cases before.find? (·.name = a.name) <;> rfl
  exact hafter [] arguments

/-- Nothing is repeated just if the names are different, and different from those before. -/
theorem repeatedAfter_eq_nil_iff {before arguments : List Argument} :
    repeatedAfter before arguments = [] ↔
      (∀ a ∈ arguments, a.name ∉ before.map Argument.name) ∧
        (arguments.map Argument.name).Nodup := by
  induction arguments generalizing before with
  | nil => simp [repeatedAfter]
  | cons a rest ih =>
    have hfirst : ((before.find? (·.name = a.name)).map (·, a)).toList = [] ↔
        a.name ∉ before.map Argument.name := by
      simp [Option.toList_eq_nil_iff]
    rw [repeatedAfter, List.append_eq_nil_iff, hfirst, ih]
    simp only [List.map_append, List.map_cons, List.map_nil, List.mem_append, List.mem_singleton,
      List.forall_mem_cons, List.nodup_cons, not_or, List.mem_map]
    grind

/-- No argument is repeated just if all have different names. -/
theorem repeatedArguments_eq_nil_iff {arguments : List Argument} :
    repeatedArguments arguments = [] ↔ (arguments.map Argument.name).Nodup := by
  rw [← repeatedAfter_nil, repeatedAfter_eq_nil_iff]
  simp

namespace Rules.UniqueArgumentNames

variable {s : Schema} {doc : Document} {chain : List Node} {isRoot : Bool}

/-- The rule's visitor, with the type of its memory spelled out. -/
def visitor : Visitor (List Argument) := uniqueArgumentNames.visitor

/-- What the rule has in mind inside a node that is no argument. -/
def remembered (n : Node) (seen : List Argument) : List Argument :=
  match n with
  | .directive _ | .field _ => []
  | _ => seen

/-- Everything but arguments is gone on with. -/
theorem enter_of_ne_argument {n : Node} (hn : ∀ a, n ≠ .argument a) (seen : List Argument) :
    enter n seen = (remembered n seen, .proceed) := by
  cases n with
  | argument a => exact absurd rfl (hn a)
  | _ => rfl

/-- A node that is gone on with changes what the children of the node change. -/
theorem visit_of_enter {n : Node} {p : Progress (List Argument)} {seen : List Argument}
    (henter : enter n p.memory = (seen, .proceed)) :
    let p' := visitAll visitor s doc [] (n :: chain) n.children ⟨p.types.enter s n, seen, p.errors⟩
    visit visitor s doc [] chain isRoot n p = ⟨p.types, p'.memory, p'.errors⟩ := by
  rw [visit_of_proceed (v := visitor) rfl henter, visitFragment_of_unasked fun _ _ => rfl]
  refine (leaveNode_of_types (visitAll_types ..) rfl).trans ?_
  -- leaving a node changes nothing, and reports nothing
  exact congrArg (Progress.mk _ _) (List.append_nil _)

/-- Nodes of which each changes nothing change nothing. -/
private theorem visitAll_eq_self {ns : List Node}
    (h : ∀ c ∈ ns, ∀ p, visit visitor s doc [] chain false c p = p)
    (p : Progress (List Argument)) : visitAll visitor s doc [] chain ns p = p := by
  induction ns with
  | nil => rfl
  | cons n ns ih =>
    obtain ⟨hn, hns⟩ := List.forall_mem_cons.1 h
    rw [visitAll_cons, hn, ih hns]

/-- A value changes nothing. -/
theorem visit_of_isLiteral (chain : List Node) (isRoot : Bool) (n : Node)
    (hn : n.isLiteral = true) (p : Progress (List Argument)) :
    visit visitor s doc [] chain isRoot n p = p := by
  -- a value is not taken notice of, and there are only values below it
  have henter : enter n p.memory = (p.memory, .proceed) := by
    cases n with
    | argument _ | directive _ | field _ => exact nomatch hn
    | _ => rfl
  rw [visit_of_enter henter]
  have hbelow : ∀ c ∈ n.children, ∀ q, visit visitor s doc [] (n :: chain) false c q = q :=
    fun c hc => visit_of_isLiteral (n :: chain) false c (Node.isLiteral_of_mem_children hn hc)
  rw [visitAll_eq_self hbelow]
termination_by sizeOf n
decreasing_by exact Node.sizeOf_lt_of_mem_children hc

section Argument

variable {a : Argument} {p : Progress (List Argument)}

/-- An argument of a name that the rule has in mind is reported with the one that it has in mind, at
the place of what is given the arguments. -/
theorem visit_argument_of_some {first : Argument}
    (h : p.memory.find? (·.name = a.name) = some first) :
    visit visitor s doc [] chain isRoot (.argument a) p =
      ⟨p.types, p.memory,
        p.errors ++ [repeatedArgumentError (chain.findSome? Node.position?) first a]⟩ := by
  have henter : enter (.argument a) p.memory =
      (p.memory, .report [.ofNodes (message a.name) [.argument first, .argument a]]) := by
    simp only [enter, h]
  have hvisit : visit visitor s doc [] chain isRoot (.argument a) p =
      p.record (.argument a) chain [.ofNodes (message a.name) [.argument first, .argument a]] :=
    visit_of_report rfl henter
  rw [hvisit]
  rfl

/-- An argument of another name is kept in mind, and its value changes nothing. -/
theorem visit_argument_of_none (h : p.memory.find? (·.name = a.name) = none) :
    visit visitor s doc [] chain isRoot (.argument a) p =
      ⟨p.types, p.memory ++ [a], p.errors⟩ := by
  have henter : enter (.argument a) p.memory = (p.memory ++ [a], .proceed) := by
    simp only [enter, h]
  rw [visit_of_enter henter, Node.children, visitAll_cons,
    visit_of_isLiteral _ _ _ (Node.isLiteral_ofValue a.value)]
  rfl

end Argument

/-- Arguments in a row are reported if they are repeated. What counts is which argument of a name
the rule has in mind first. -/
private theorem visitAll_arguments (arguments before : List Argument)
    (p : Progress (List Argument))
    (hseen : ∀ name, p.memory.find? (·.name = name) = before.find? (·.name = name)) :
    ∃ seen, visitAll visitor s doc [] chain (arguments.map .argument) p =
      ⟨p.types, seen, p.errors ++ (repeatedAfter before arguments).map fun (first, again) =>
        repeatedArgumentError (chain.findSome? Node.position?) first again⟩ := by
  induction arguments generalizing before p with
  | nil => exact ⟨p.memory, congrArg (Progress.mk _ _) (List.append_nil _).symm⟩
  | cons a rest ih =>
    rw [List.map_cons, visitAll_cons, repeatedAfter]
    cases hfirst : before.find? (·.name = a.name) with
    | some first =>
      rw [visit_argument_of_some ((hseen a.name).trans hfirst)]
      -- the rule does not keep the argument, but has one of its name in mind already
      have hstill (name : String) :
          p.memory.find? (·.name = name) = (before ++ [a]).find? (·.name = name) := by
        rw [hseen, List.find?_append]
        by_cases hname : a.name = name
        · rw [← hname, hfirst, Option.some_or]
        · simp [hname]
      obtain ⟨seen, hrest⟩ := ih (before ++ [a])
        ⟨p.types, p.memory, p.errors ++ [repeatedArgumentError _ first a]⟩ hstill
      refine ⟨seen, hrest.trans (congrArg (Progress.mk _ _) ?_)⟩
      rw [List.append_assoc]
      rfl
    | none =>
      rw [visit_argument_of_none ((hseen a.name).trans hfirst)]
      have hnow (name : String) :
          (p.memory ++ [a]).find? (·.name = name) = (before ++ [a]).find? (·.name = name) := by
        rw [List.find?_append, List.find?_append, hseen]
      obtain ⟨seen, hrest⟩ := ih (before ++ [a]) ⟨p.types, p.memory ++ [a], p.errors⟩ hnow
      exact ⟨seen, hrest⟩

/-- The arguments that a node is given are reported if they are repeated, whatever the rule has had
in mind before. -/
private theorem visitAll_givenArguments (s : Schema) (doc : Document) (chain : List Node) (n : Node)
    (types : TypeState) (seen : List Argument) (errors : List ValidationError) :
    ∃ seen', visitAll visitor s doc [] (n :: chain) (n.givenArguments.map .argument)
      ⟨types, remembered n seen, errors⟩ = ⟨types, seen', errors ++ n.repeatedArgumentErrors⟩ := by
  rw [Node.repeatedArgumentErrors, ← repeatedAfter_nil]
  -- nothing is in mind inside a field or a directive, and no other node is given arguments
  cases n with
  | field _ | directive _ => exact visitAll_arguments _ [] _ fun _ => rfl
  | _ => exact ⟨_, congrArg (Progress.mk _ _) (List.append_nil _).symm⟩

/-- Nodes of each of which it is known what is reported. -/
private theorem visitAll_reported {ns : List Node} {reported : Node → List ValidationError}
    (h : ∀ c ∈ ns, ∀ p, ∃ seen, visit visitor s doc [] chain false c p =
      ⟨p.types, seen, p.errors ++ reported c⟩) (p : Progress (List Argument)) :
    ∃ seen, visitAll visitor s doc [] chain ns p =
      ⟨p.types, seen, p.errors ++ ns.flatMap reported⟩ := by
  induction ns generalizing p with
  | nil => exact ⟨p.memory, congrArg (Progress.mk _ _) (List.append_nil _).symm⟩
  | cons n ns ih =>
    obtain ⟨hn, hns⟩ := List.forall_mem_cons.1 h
    obtain ⟨seen, hvisit⟩ := hn p
    obtain ⟨seen', hrest⟩ := ih hns ⟨p.types, seen, p.errors ++ reported n⟩
    refine ⟨seen', ?_⟩
    rw [visitAll_cons, hvisit, hrest, List.flatMap_cons, List.append_assoc]

/-- What is repeated in a node is what is repeated among the arguments that the node is given, and
in those of its children that are no arguments. -/
private theorem flatMap_subtree {n : Node} {others : List Node}
    (hchildren : n.children = n.givenArguments.map .argument ++ others) :
    n.subtree.flatMap Node.repeatedArgumentErrors = n.repeatedArgumentErrors ++
      others.flatMap fun c => c.subtree.flatMap Node.repeatedArgumentErrors := by
  have hnone : ((n.givenArguments.map Node.argument).flatMap Node.subtree).flatMap
      Node.repeatedArgumentErrors = [] := by
    refine List.flatMap_eq_nil_iff.2 fun m hm => ?_
    obtain ⟨c, hc, hm⟩ := List.mem_flatMap.1 hm
    obtain ⟨a, -, rfl⟩ := List.mem_map.1 hc
    rw [Node.repeatedArgumentErrors, Node.givenArguments_of_mem_argument hm]
    rfl
  rw [Node.subtree_eq, List.flatMap_cons, hchildren, List.flatMap_append, List.flatMap_append,
    hnone, List.nil_append, List.flatMap_assoc]

/-- In a node that is no argument, what is reported is what is repeated among the arguments that the
node, or something below it, is given. -/
theorem visit_eq (chain : List Node) (isRoot : Bool) (n : Node) (hn : ∀ a, n ≠ .argument a)
    (p : Progress (List Argument)) : ∃ seen, visit visitor s doc [] chain isRoot n p =
      ⟨p.types, seen, p.errors ++ n.subtree.flatMap Node.repeatedArgumentErrors⟩ := by
  obtain ⟨others, hchildren, hothers⟩ := n.children_eq_arguments_append
  -- the arguments come first, and what the rule has in mind after them does not matter
  obtain ⟨seen₁, harguments⟩ :=
    visitAll_givenArguments s doc chain n (p.types.enter s n) p.memory p.errors
  have hbelow : ∀ c ∈ others, ∀ q, ∃ seen, visit visitor s doc [] (n :: chain) false c q =
      ⟨q.types, seen, q.errors ++ c.subtree.flatMap Node.repeatedArgumentErrors⟩ := fun c hc => by
    have hmem : c ∈ n.children := hchildren ▸ List.mem_append_right _ hc
    exact visit_eq (n :: chain) false c (hothers c hc)
  obtain ⟨seen₂, hrest⟩ := visitAll_reported hbelow
    ⟨p.types.enter s n, seen₁, p.errors ++ n.repeatedArgumentErrors⟩
  refine ⟨seen₂, ?_⟩
  rw [visit_of_enter (enter_of_ne_argument hn p.memory), hchildren, visitAll_append, harguments,
    hrest, flatMap_subtree hchildren, List.append_assoc]
termination_by sizeOf n
decreasing_by exact Node.sizeOf_lt_of_mem_children hmem

/-- What the rule finds are the arguments that are repeated. -/
theorem outcome_errors (s : Schema) (doc : Document) :
    (uniqueArgumentNames.outcome s doc).errors =
      (Node.document doc).subtree.flatMap Node.repeatedArgumentErrors := by
  have hvisit : ∃ seen, visit visitor s doc [] [] true (.document doc) ⟨.empty, [], []⟩ =
      ⟨.empty, seen, [] ++ (Node.document doc).subtree.flatMap Node.repeatedArgumentErrors⟩ :=
    visit_eq [] true (.document doc) nofun _
  obtain ⟨seen, hvisit⟩ := hvisit
  exact congrArg Progress.errors hvisit

end Rules.UniqueArgumentNames

/-- The rule on unique argument names finds, in the order of the document, the arguments of each
field and each directive that come after one of the same name among the arguments of the same field
or directive. It tells of the first of that name, and finds nothing else. -/
theorem uniqueArgumentNames_errors_eq (s : Schema) (doc : Document) :
    s.validateWithRules doc [Rules.uniqueArgumentNames] =
      (Node.document doc).subtree.flatMap Node.repeatedArgumentErrors := by
  rw [s.validateWithRules_eq_flatMap, List.flatMap_singleton]
  exact Rules.UniqueArgumentNames.outcome_errors s doc

/-- The rule on unique argument names finds nothing where every field and every directive to which a
walk over the document comes is given arguments of different names. -/
theorem uniqueArgumentNames_errors_eq_nil {s : Schema} {doc : Document}
    (hdoc : ∀ chain n, Way doc [] (n :: chain) → (n.givenArguments.map Argument.name).Nodup) :
    (Rules.uniqueArgumentNames.outcome s doc).errors = [] := by
  rw [Rules.UniqueArgumentNames.outcome_errors, List.flatMap_eq_nil_iff]
  intro n hn
  obtain ⟨outside, hway⟩ := (Way.step .here .document).exists_of_mem_subtree hn
  rw [Node.repeatedArgumentErrors, repeatedArguments_eq_nil_iff.2 (hdoc outside n hway)]
  rfl

end GraphQLCheck
