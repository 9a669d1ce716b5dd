import GraphQLCheck.Proofs.Document.Occurrences
import GraphQLCheck.Proofs.Traversal.Steps
import GraphQLCheck.Validation.Validate
import Mathlib.Data.List.Forall2

/-!
# Which variables are reported as undefined

An operation is answerable for the variables in its own directives and selection set, and for those
in the fragments to which chains of spreads lead from there. `Explored` relates the fragments spread
before and after a part of an operation has been visited, with what has been reported on the way:
the fragments that became known have been visited, each once, and nothing else has.

Main statement: the rule reports, operation by operation, each such use of a variable that the
operation does not define exactly once, and nothing else (`undefinedVariables_reported`).
-/

namespace GraphQLCheck

open Rules.NoUndefinedVariables

/-- What an error says, and the nodes it names. -/
def ValidationError.finding (e : ValidationError) : String × List Node := (e.message, e.nodes)

/-- Where an error is located does not change what it says. -/
@[simp]
theorem ValidationError.finding_orLocatedAt (e : ValidationError) (fallback : Option Position) :
    (e.orLocatedAt fallback).finding = e.finding := by
  rw [orLocatedAt]
  split <;> rfl

/-- What has been found when errors have been recorded. -/
@[simp]
theorem Progress.map_finding_record {σ : Type} (p : Progress σ) (n : Node) (ancestors : List Node)
    (errors : List ValidationError) :
    (p.record n ancestors errors).errors.map ValidationError.finding =
      p.errors.map ValidationError.finding ++ errors.map ValidationError.finding := by
  rw [Progress.record, List.map_append, List.map_map]
  congr 1
  exact List.map_congr_left fun e _ => e.finding_orLocatedAt _

namespace Rules.NoUndefinedVariables

/-- What is to be found of an undefined variable that an operation uses itself. -/
def ownFinding (name : String) : String × List Node := (message name, [.variable name])

/-- What is to be found of an undefined variable in a fragment that an operation reaches. -/
def fragmentFinding (operation : OperationDefinition) (name : String) : String × List Node :=
  match operation.name with
  | some operationName =>
    (byOperationMessage name operationName, [.variable name, .operationDefinition operation])
  | none => ownFinding name

/-- The uses of variables in some nodes that are not among the defined variables. -/
def undefinedIn (defined : List String) (ns : List Node) : List String :=
  (variablesIn ns).filter fun name => name ∉ defined

/-- The names of the variables that an operation defines. -/
def definedBy (operation : OperationDefinition) : List String :=
  operation.variableDefinitions.map VariableDefinition.name

/-- Whether the findings are those that one operation of a document gives rise to: one for each
undefined use of a variable in the operation itself, and one for each in a fragment that is reached
from its selection set, where no fragment counts twice. -/
def IsReport (doc : Document) (operation : OperationDefinition)
    (findings : List (String × List Node)) : Prop :=
  ∃ fragments : List FragmentDefinition, fragments.Nodup ∧
    (∀ d, d ∈ fragments ↔ doc.Reaches operation.selectionSet d) ∧
    findings.Perm ((undefinedIn (definedBy operation) operation.body).map ownFinding ++
      fragments.flatMap fun d =>
        (undefinedIn (definedBy operation) d.body).map (fragmentFinding operation))

/-- What is to be found of an undefined variable at some depth of fragments. -/
def findingAt (operation : OperationDefinition) (depth : Nat) (name : String) :
    String × List Node :=
  if 0 < depth then fragmentFinding operation name else ownFinding name

/-- What the rule's error says is what is to be found. -/
theorem finding_error {m : Memory} {operation : OperationDefinition}
    (h : m.operation = some operation) (name : String) :
    (error m name).finding = findingAt operation m.fragmentDepth name := by
  obtain ⟨_, _, operationName, _, _, _⟩ := operation
  rw [error, h, findingAt, fragmentFinding]
  -- the message depends on the depth, and inside a fragment on whether there is a name
  by_cases hdepth : 0 < m.fragmentDepth
  · cases operationName <;> simp only [if_pos hdepth] <;> rfl
  · cases operationName <;> simp only [if_neg hdepth] <;> rfl

section Undefined

variable (defined : List String)

/-- The undefined uses in nodes next to each other. -/
theorem undefinedIn_cons (n : Node) (ns : List Node) :
    undefinedIn defined (n :: ns) = undefinedIn defined [n] ++ undefinedIn defined ns := by
  rw [undefinedIn, variablesIn, occurrences_cons, List.filter_append]
  rfl

/-- The undefined uses in a node that is none itself are those in its children. -/
theorem undefinedIn_children {n : Node} (hn : n.usedName? = none) :
    undefinedIn defined [n] = undefinedIn defined n.children := by
  rw [undefinedIn, variablesIn, occurrences_singleton, hn]
  rfl

/-- Where no variable is used, none is undefined. -/
theorem undefinedIn_eq_nil {ns : List Node} (h : variablesIn ns = []) :
    undefinedIn defined ns = [] := by
  rw [undefinedIn, h]
  rfl

/-- A variable is one use. -/
theorem undefinedIn_variable (name : String) :
    undefinedIn defined [.variable name] = if name ∈ defined then [] else [name] := by
  rw [undefinedIn, variablesIn, occurrences_singleton]
  by_cases h : name ∈ defined
  · rw [if_pos h]
    exact List.filter_eq_nil_iff.2 fun x hx => by simp [List.mem_singleton.1 hx, h]
  · rw [if_neg h]
    exact List.filter_eq_self.2 fun x hx => by simp [List.mem_singleton.1 hx, h]

/-- The undefined uses in a definition of a fragment are those in its body. -/
theorem undefinedIn_fragmentDefinition (d : FragmentDefinition) :
    undefinedIn defined [.fragmentDefinition d] = undefinedIn defined d.body := by
  -- the children are the type condition, which uses no variable, and the body
  rw [undefinedIn_children defined rfl]
  show undefinedIn defined (.namedType d.typeCondition :: d.body) = _
  rw [undefinedIn_cons, undefinedIn_children defined rfl]
  rfl

/-- Only which variables are defined matters. -/
theorem undefinedIn_congr {defined defined' : List String} (h : ∀ x, x ∈ defined ↔ x ∈ defined')
    (ns : List Node) : undefinedIn defined ns = undefinedIn defined' ns := by
  refine List.filter_congr fun x _ => ?_
  rw [decide_eq_decide, not_iff_not]
  exact h x

end Undefined

/-- What visiting a part of an operation amounts to, which spreads `names` itself and in which `own`
is to be found, if the fragments named in `before` have been spread before and those named in
`after` afterwards. The fragments that have been visited are `fragments`, and `found` is what has
been found. -/
structure Explored (doc : Document) (operation : OperationDefinition) (defined : List String)
    (names : List String) (own : List (String × List Node)) (before after : List String)
    (fragments : List FragmentDefinition) (found : List (String × List Node)) : Prop where
  /-- No spread is forgotten. -/
  keeps : before ⊆ after
  /-- The part's own spreads are known. -/
  spreads : names ⊆ after
  /-- Every spread that became known is reached from the part. -/
  reached : ∀ name ∈ after, name ∈ before ∨ doc.ReachesName names name
  /-- The fragments visited are those whose spreads became known. -/
  mem : ∀ d, d ∈ fragments ↔
    doc.fragment? d.name = some d ∧ d.name ∈ after ∧ d.name ∉ before
  /-- No fragment is visited twice. -/
  nodup : fragments.Nodup
  /-- The spreads in the fragments visited are known. -/
  closed : ∀ d ∈ fragments, spreadNames [.selectionSet d.selectionSet] ⊆ after
  /-- Each undefined use is found once. -/
  found : found.Perm (own ++ fragments.flatMap fun d =>
    (undefinedIn defined d.body).map (fragmentFinding operation))

namespace Explored

variable {doc : Document} {operation : OperationDefinition} {defined : List String}
  {names names' : List String} {own own' : List (String × List Node)}
  {before between after : List String} {fragments fragments' : List FragmentDefinition}
  {found found' : List (String × List Node)} {name : String} {d : FragmentDefinition}

/-- If no fragment is visited, only what is the part's own is found. -/
private theorem of_subset (hnames : names ⊆ before) :
    Explored doc operation defined names own before before [] own where
  keeps := List.Subset.refl before
  spreads := hnames
  reached _ hname := .inl hname
  mem d := ⟨fun hd => (nomatch hd), fun hd => absurd hd.2.1 hd.2.2⟩
  nodup := List.nodup_nil
  closed _ hd := nomatch hd
  found := by rw [List.flatMap_nil, List.append_nil]

/-- A part that spreads nothing leads to no fragment. -/
theorem without_spreads (own : List (String × List Node)) (before : List String) :
    Explored doc operation defined [] own before before [] own :=
  of_subset (List.nil_subset before)

/-- A fragment that has been spread before is not visited again. -/
theorem again (hname : name ∈ before) :
    Explored doc operation defined [name] [] before before [] [] :=
  of_subset (List.cons_subset.2 ⟨hname, List.nil_subset before⟩)

/-- There is nothing to visit at the spread of a fragment that is not defined. -/
theorem missing (hnone : doc.fragment? name = none) :
    Explored doc operation defined [name] [] before (name :: before) [] [] where
  keeps := List.subset_cons_self name before
  spreads := List.cons_subset.2 ⟨List.mem_cons_self, List.nil_subset _⟩
  reached x hx := by
    rcases List.mem_cons.1 hx with rfl | hx
    · exact .inr (.here (List.mem_singleton.2 rfl))
    · exact .inl hx
  mem d := by
    -- the only name that became known stands for no fragment
    refine ⟨fun hd => (nomatch hd), fun ⟨hd, hafter, hbefore⟩ => ?_⟩
    rcases List.mem_cons.1 hafter with rfl | hafter
    · exact nomatch hnone.symm.trans hd
    · exact absurd hafter hbefore
  nodup := List.nodup_nil
  closed _ hd := nomatch hd
  found := .nil

/-- The first spread of a fragment leads to the fragment and to where its own spreads lead. -/
theorem inlined (hd : doc.fragment? name = some d) (hname : name ∉ before)
    (h : Explored doc operation defined (spreadNames [.selectionSet d.selectionSet])
      ((undefinedIn defined d.body).map (fragmentFinding operation)) (name :: before) after
      fragments found) :
    Explored doc operation defined [name] [] before after (d :: fragments) found := by
  obtain rfl : d.name = name := (Document.mem_of_fragment? hd).2
  have hself : doc.ReachesName [d.name] d.name := .here (List.mem_singleton.2 rfl)
  refine ⟨?_, ?_, ?_, ?_, ?_, ?_, ?_⟩
  · exact List.Subset.trans (List.subset_cons_self d.name before) h.keeps
  · exact List.cons_subset.2 ⟨h.keeps List.mem_cons_self, List.nil_subset after⟩
  · -- what is reached from the fragment's own spreads is reached through its name
    intro x hx
    rcases h.reached x hx with hx | hx
    · rcases List.mem_cons.1 hx with rfl | hx
      · exact .inr hself
      · exact .inl hx
    · exact .inr (hx.trans fun y hy => .through hself hd hy)
  · intro e
    rw [List.mem_cons, h.mem, List.mem_cons, not_or]
    constructor
    · rintro (rfl | ⟨he, hafter, -, hbefore⟩)
      · exact ⟨hd, h.keeps List.mem_cons_self, hname⟩
      · exact ⟨he, hafter, hbefore⟩
    · rintro ⟨he, hafter, hbefore⟩
      -- the definition a name stands for is determined by the name
      by_cases hsame : e.name = d.name
      · exact .inl (Option.some.inj (he.symm.trans (hsame ▸ hd)))
      · exact .inr ⟨he, hafter, hsame, hbefore⟩
  · -- the fragment was known when its body was visited, so it is not found again there
    refine List.nodup_cons.2 ⟨fun hmem => ?_, h.nodup⟩
    exact ((h.mem d).1 hmem).2.2 List.mem_cons_self
  · intro e he
    rcases List.mem_cons.1 he with rfl | he
    · exact h.spreads
    · exact h.closed e he
  · rw [List.nil_append, List.flatMap_cons]
    exact h.found

/-- Parts that are visited one after the other. -/
theorem append
    (h : Explored doc operation defined names own before between fragments found)
    (h' : Explored doc operation defined names' own' between after fragments' found') :
    Explored doc operation defined (names ++ names') (own ++ own') before after
      (fragments ++ fragments') (found ++ found') where
  keeps := List.Subset.trans h.keeps h'.keeps
  spreads := List.append_subset.2 ⟨List.Subset.trans h.spreads h'.keeps, h'.spreads⟩
  reached x hx := by
    -- a chain from one of the parts is a chain from both
    have hleft (y : String) (hy : y ∈ names) : doc.ReachesName (names ++ names') y :=
      .here (List.mem_append_left names' hy)
    have hright (y : String) (hy : y ∈ names') : doc.ReachesName (names ++ names') y :=
      .here (List.mem_append_right names hy)
    rcases h'.reached x hx with hx | hx
    · exact (h.reached x hx).imp_right fun hx => hx.trans hleft
    · exact .inr (hx.trans hright)
  mem d := by
    rw [List.mem_append, h.mem, h'.mem]
    constructor
    · rintro (⟨hd, hbetween, hbefore⟩ | ⟨hd, hafter, hbetween⟩)
      · exact ⟨hd, h'.keeps hbetween, hbefore⟩
      · exact ⟨hd, hafter, fun hbefore => hbetween (h.keeps hbefore)⟩
    · rintro ⟨hd, hafter, hbefore⟩
      -- a fragment belongs to the part that made its name known
      by_cases hbetween : d.name ∈ between
      · exact .inl ⟨hd, hbetween, hbefore⟩
      · exact .inr ⟨hd, hafter, hbetween⟩
  nodup := by
    refine List.nodup_append.2 ⟨h.nodup, h'.nodup, ?_⟩
    rintro d hd _ hd' rfl
    exact ((h'.mem d).1 hd').2.2 ((h.mem d).1 hd).2.1
  closed d hd := by
    rcases List.mem_append.1 hd with hd | hd
    · exact List.Subset.trans (h.closed d hd) h'.keeps
    · exact h'.closed d hd
  found := by
    rw [List.flatMap_append]
    -- the fragments found first move behind what is the second part's own
    refine (h.found.append h'.found).trans ?_
    rw [List.append_assoc, List.append_assoc]
    refine .append_left own ?_
    rw [← List.append_assoc, ← List.append_assoc]
    exact .append_right _ List.perm_append_comm

/-- From nothing, exactly the fragments are visited that a chain of spreads leads to. -/
theorem mem_iff_reached
    (h : Explored doc operation defined names own [] after fragments found)
    (d : FragmentDefinition) :
    d ∈ fragments ↔ ∃ name, doc.ReachesName names name ∧ doc.fragment? name = some d := by
  -- by induction along the chain: what is known is closed under the spreads of fragments
  have hafter {name : String} (hname : doc.ReachesName names name) : name ∈ after := by
    induction hname with
    | here hmem => exact h.spreads hmem
    | through _ hd hnext ih =>
      obtain rfl := (Document.mem_of_fragment? hd).2
      -- a name that became known stands for a fragment that was visited
      exact h.closed _ ((h.mem _).2 ⟨hd, ih, List.not_mem_nil⟩) hnext
  rw [h.mem]
  constructor
  · rintro ⟨hd, hname, -⟩
    exact ⟨d.name, (h.reached d.name hname).resolve_left List.not_mem_nil, hd⟩
  · rintro ⟨name, hname, hd⟩
    obtain rfl := (Document.mem_of_fragment? hd).2
    exact ⟨hd, hafter hname, List.not_mem_nil⟩

/-- From nothing, a part without spreads leads to no fragment, and only its own is found. -/
theorem eq_of_no_spreads
    (h : Explored doc operation defined [] own [] after fragments found) :
    after = [] ∧ found.Perm own := by
  have hafter : after = [] := by
    refine List.eq_nil_iff_forall_not_mem.2 fun name hname => ?_
    exact doc.not_reachesName_nil name ((h.reached name hname).resolve_left List.not_mem_nil)
  have hfragments : fragments = [] := by
    refine List.eq_nil_iff_forall_not_mem.2 fun d hd => ?_
    obtain ⟨name, hname, -⟩ := (h.mem_iff_reached d).1 hd
    exact doc.not_reachesName_nil name hname
  refine ⟨hafter, ?_⟩
  have hfound := h.found
  rw [hfragments, List.flatMap_nil, List.append_nil] at hfound
  exact hfound

end Explored

section Handlers

variable {n : Node} {m m' : Memory}

/-- An inner part is entered without a trace. -/
theorem enter_of_isInner (hn : n.isInner = true) : (enter n m).1 = m := by
  cases n with
  | «variable» name =>
    rw [enter]
    split <;> rfl
  | document _ | fragmentDefinition _ | operationDefinition _ | variableDefinition _ =>
    exact nomatch hn
  | _ => rfl

/-- No node is skipped without a report. -/
theorem enter_ne_skip : enter n m ≠ (m', .skip) := by
  intro h
  cases n with
  | «variable» name =>
    rw [enter] at h
    split at h
    · exact nomatch h
    · exact nomatch h
  | _ => exact nomatch h

/-- Only an undefined variable is reported. -/
theorem eq_variable_of_enter {errors : List ValidationError}
    (h : enter n m = (m', .report errors)) :
    ∃ name, n = .variable name ∧ name ∉ m.defined ∧ m' = m ∧ errors = [error m name] := by
  cases n with
  | «variable» name =>
    rw [enter] at h
    split at h
    next => exact nomatch h
    next hname =>
      obtain ⟨rfl, herrors⟩ := Prod.mk.inj h
      exact ⟨name, rfl, hname, rfl, (Response.report.inj herrors).symm⟩
  | _ => exact nomatch h

/-- A node that is gone on with is no undefined use itself. -/
theorem undefinedIn_of_enter (h : enter n m = (m', .proceed)) :
    undefinedIn m.defined [n] = undefinedIn m.defined n.children := by
  cases n with
  | «variable» name =>
    rw [enter] at h
    split at h
    next hname => rw [undefinedIn_variable, if_pos hname]; rfl
    next => exact nomatch h
  | _ => exact undefinedIn_children m.defined rfl

/-- Entering and leaving the definition of a fragment only moves the depth up and down. -/
theorem leave_of_enter (hn : n.isInner = true ∨ n.isFragmentDefinition = true)
    (h : enter n m = (m', .proceed)) :
    m' = { m with fragmentDepth := m'.fragmentDepth } ∧
      ∀ after, leave n { m' with spread := after } = { m with spread := after } := by
  -- only the definition of a fragment changes the memory, and only its depth
  rcases hn with hn | hn
  · obtain rfl : m = m' := (enter_of_isInner hn).symm.trans (congrArg Prod.fst h)
    refine ⟨rfl, fun after => ?_⟩
    cases n with
    | fragmentDefinition d => exact nomatch hn
    | _ => rfl
  · cases n with
    | fragmentDefinition d =>
      obtain ⟨rfl, -⟩ := Prod.mk.inj h
      exact ⟨rfl, fun after => rfl⟩
    | _ => exact nomatch hn

/-- A fragment that has been spread before is not asked for. -/
theorem inlineSpread_of_mem {spread : FragmentSpread} (h : spread.name ∈ m.spread) :
    inlineSpread spread m = (m, false) :=
  if_pos h

/-- The first spread of a fragment is noted, and the fragment is asked for. -/
theorem inlineSpread_of_not_mem {spread : FragmentSpread} (h : spread.name ∉ m.spread) :
    inlineSpread spread m = ({ m with spread := spread.name :: m.spread }, true) :=
  if_neg h

end Handlers

section Walk

/-- Whether a memory is that of a walk inside an operation, where some variables are defined and
some fragments are being visited. -/
structure InOperation (operation : OperationDefinition) (defined inlining : List String)
    (m : Memory) : Prop where
  operation : m.operation = some operation
  defined : m.defined = defined
  /-- Fragments are visited where they are spread. -/
  inlining : inlining ⊆ m.spread

/-- Whether a part of an operation, which spreads `names` itself and in which `own` is to be found,
may have been visited between two points of a walk. -/
def Visited (doc : Document) (operation : OperationDefinition) (defined names : List String)
    (own : List (String × List Node)) (p p' : Progress Memory) : Prop :=
  ∃ after fragments found, p'.memory = { p.memory with spread := after } ∧
    p'.errors.map ValidationError.finding = p.errors.map ValidationError.finding ++ found ∧
    Explored doc operation defined names own p.memory.spread after fragments found

variable {doc : Document} {operation : OperationDefinition} {defined names names' : List String}
  {own own' : List (String × List Node)} {p p' p'' : Progress Memory}

namespace Visited

/-- Nothing needs to be visited where nothing is. -/
theorem refl (doc : Document) (operation : OperationDefinition) (defined : List String)
    (p : Progress Memory) : Visited doc operation defined [] [] p p :=
  ⟨p.memory.spread, [], [], rfl, (List.append_nil _).symm, .without_spreads [] _⟩

/-- Parts are visited one after the other. -/
theorem append (h : Visited doc operation defined names own p p')
    (h' : Visited doc operation defined names' own' p' p'') :
    Visited doc operation defined (names ++ names') (own ++ own') p p'' := by
  obtain ⟨between, fragments, found, hmemory, herrors, hexplored⟩ := h
  obtain ⟨after, fragments', found', hmemory', herrors', hexplored'⟩ := h'
  refine ⟨after, fragments ++ fragments', found ++ found', ?_, ?_, hexplored.append ?_⟩
  · rw [hmemory', hmemory]
  · rw [herrors', herrors, List.append_assoc]
  · rw [hmemory] at hexplored'
    exact hexplored'

/-- A visit stays inside the operation. -/
theorem inOperation (h : Visited doc operation defined names own p p') {inlining : List String}
    (hp : InOperation operation defined inlining p.memory) :
    InOperation operation defined inlining p'.memory := by
  obtain ⟨after, fragments, found, hmemory, -, hexplored⟩ := h
  rw [hmemory]
  exact ⟨hp.operation, hp.defined, List.Subset.trans hp.inlining hexplored.keeps⟩

/-- A visit ends at the depth at which it began. -/
theorem fragmentDepth (h : Visited doc operation defined names own p p') :
    p'.memory.fragmentDepth = p.memory.fragmentDepth := by
  obtain ⟨after, fragments, found, hmemory, -, -⟩ := h
  rw [hmemory]

/-- Where no fragment has been spread, visiting a part without spreads finds just its own. -/
theorem eq_of_no_spreads (h : Visited doc operation defined [] [] p p')
    (hspread : p.memory.spread = []) :
    p'.memory = p.memory ∧
      p'.errors.map ValidationError.finding = p.errors.map ValidationError.finding := by
  obtain ⟨after, fragments, found, hmemory, herrors, hexplored⟩ := h
  rw [hspread] at hexplored
  obtain ⟨rfl, hfound⟩ := hexplored.eq_of_no_spreads
  rw [hfound.eq_nil, List.append_nil] at herrors
  rw [← hspread] at hmemory
  exact ⟨hmemory, herrors⟩

end Visited

/-- The visitor of the rule. -/
def visitor : Visitor Memory := Rules.noUndefinedVariables.visitor

/-- Walking over inner parts of an operation visits them: each undefined use in them and in the
fragments they lead to for the first time is found once. -/
theorem visitAll_visited (s : Schema) (doc : Document) (operation : OperationDefinition)
    (defined inlining : List String) (ancestors ns : List Node) (p : Progress Memory)
    (hns : ∀ n ∈ ns, n.isInner = true)
    (hp : InOperation operation defined inlining p.memory) :
    Visited doc operation defined (spreadNames ns)
      ((undefinedIn defined ns).map (findingAt operation p.memory.fragmentDepth)) p
      (visitAll visitor s doc inlining ancestors ns p) := by
  -- `P` is stated at the depth after entering, since a fragment definition counts for its own uses;
  -- below an operation the only roots of a visit are the definitions of fragments
  refine visitAll_induct (v := visitor)
    (P := fun inlining _ isRoot n p p' =>
      n.isInner = true ∨ isRoot = true ∧ n.isFragmentDefinition = true →
      InOperation operation defined inlining p.memory →
      Visited doc operation defined (spreadNames [n]) ((undefinedIn defined [n]).map
        (findingAt operation (enter n p.memory).1.fragmentDepth)) p p')
    (Q := fun inlining _ ns p p' => (∀ n ∈ ns, n.isInner = true) →
      InOperation operation defined inlining p.memory →
      Visited doc operation defined (spreadNames ns)
        ((undefinedIn defined ns).map (findingAt operation p.memory.fragmentDepth)) p p')
    (R := fun inlining _ n p p' => InOperation operation defined inlining p.memory →
      Visited doc operation defined n.spreadName?.toList [] p p')
    { dropped := ?dropped, skipped := ?skipped, reported := ?reported, entered := ?entered
      nil := ?nil, cons := ?cons, unasked := ?unasked, refused := ?refused, inlined := ?inlined }
    inlining ancestors ns p hns hp
  case dropped =>
    intro inlining ancestors isRoot n p hdrop hn hp
    rw [Visitor.drops, Bool.and_eq_true, Bool.and_eq_true] at hdrop
    obtain ⟨⟨-, hroot⟩, hdefinition⟩ := hdrop
    -- a fragment definition that is passed by is neither a root nor an inner part
    obtain hn | ⟨rfl, -⟩ := hn
    · cases n with
      | fragmentDefinition d => exact absurd hn Bool.false_ne_true
      | _ => exact absurd hdefinition Bool.false_ne_true
    · exact absurd hroot Bool.false_ne_true
  case skipped =>
    intro inlining ancestors isRoot n p m hdrop henter
    exact absurd henter enter_ne_skip
  case reported =>
    intro inlining ancestors isRoot n p m errors hdrop henter hn hp
    -- an undefined variable is all that is found, and it spreads nothing
    obtain ⟨name, rfl, hname, rfl, rfl⟩ := eq_variable_of_enter henter
    refine ⟨p.memory.spread, [], _, rfl, Progress.map_finding_record _ _ _ _, ?_⟩
    rw [hp.defined] at hname
    rw [enter_of_isInner rfl, undefinedIn_variable, if_neg hname, List.map_singleton,
      List.map_singleton, finding_error hp.operation,
      spreadNames_of_isInput (by simp [Node.isInput])]
    exact .without_spreads _ _
  case entered =>
    intro inlining ancestors isRoot n p m p₁ p₂ m' errors hdrop henter hR htypes₁ htypes₂ hQ hleave
      hn hp
    change enter n p.memory = (m, .proceed) at henter
    obtain ⟨hm, hleaving⟩ := leave_of_enter (hn.imp_right And.right) henter
    obtain ⟨rfl, rfl⟩ := Prod.mk.inj hleave
    -- entering leaves the spreads alone, so the fragment and the children continue from them
    have hspread : m.spread = p.memory.spread := by rw [hm]
    have hinside : InOperation operation defined inlining m := by
      rw [hm]
      exact ⟨hp.operation, hp.defined, hp.inlining⟩
    -- below inner parts and fragment definitions there are inner parts only
    have hchildren (c : Node) (hc : c ∈ n.children) : c.isInner = true := by
      obtain hn | ⟨-, hdefinition⟩ := hn
      · exact Node.isInner_of_mem_children hn hc
      · exact Node.isInner_of_mem_definition hdefinition hc
    have hfragment := hR hinside
    have hrest := hQ hchildren (hfragment.inOperation hinside)
    rw [hfragment.fragmentDepth] at hrest
    obtain ⟨after, fragments, found, hmemory, herrors, hexplored⟩ := hfragment.append hrest
    refine ⟨after, fragments, found, ?_, ?_, ?_⟩
    · show leave n p₂.memory = _
      rw [hmemory, hleaving]
    · rw [Progress.map_finding_record, List.map_nil, List.append_nil]
      exact herrors
    · have hown := undefinedIn_of_enter henter
      rw [hp.defined] at hown
      rw [spreadNames, occurrences_singleton, hown, henter, ← hspread]
      exact hexplored
  case nil =>
    intro inlining ancestors p hns hp
    exact .refl doc operation defined p
  case cons =>
    intro inlining ancestors n ns p p₁ p₂ hP htypes₁ hQ hns hp
    obtain ⟨hn, hns⟩ := List.forall_mem_cons.1 hns
    have hfirst := hP (.inl hn) hp
    rw [enter_of_isInner hn] at hfirst
    have hrest := hQ hns (hfirst.inOperation hp)
    rw [hfirst.fragmentDepth] at hrest
    rw [spreadNames, occurrences_cons, undefinedIn_cons, List.map_append]
    exact hfirst.append hrest
  case unasked =>
    intro inlining ancestors n p hn hp
    cases n with
    | fragmentSpread spread => exact absurd (hn spread rfl).symm Bool.false_ne_true
    | _ => exact .refl doc operation defined p
  case refused =>
    intro inlining ancestors spread p m inline hspreads hask hno hp
    -- either the rule has met the name before, or there is no such fragment
    by_cases hname : spread.name ∈ p.memory.spread
    · obtain ⟨rfl, -⟩ := Prod.mk.inj ((inlineSpread_of_mem hname).symm.trans hask)
      exact ⟨p.memory.spread, [], [], rfl, (List.append_nil _).symm, .again hname⟩
    · obtain ⟨rfl, rfl⟩ := Prod.mk.inj ((inlineSpread_of_not_mem hname).symm.trans hask)
      have hnone := hno rfl fun hinlining => hname (hp.inlining hinlining)
      exact ⟨spread.name :: p.memory.spread, [], [], rfl, (List.append_nil _).symm,
        .missing hnone⟩
  case inlined =>
    intro inlining ancestors spread d p m p' hspreads hask hmem hd hP hp
    -- the rule asks for a fragment only at its first spread
    have hname : spread.name ∉ p.memory.spread := by
      intro hname
      exact Bool.false_ne_true (Prod.mk.inj ((inlineSpread_of_mem hname).symm.trans hask)).2
    obtain ⟨rfl, -⟩ := Prod.mk.inj ((inlineSpread_of_not_mem hname).symm.trans hask)
    obtain ⟨after, fragments, found, hmemory, herrors, hexplored⟩ := hP (.inr ⟨rfl, rfl⟩)
      ⟨hp.operation, hp.defined, List.cons_subset_cons spread.name hp.inlining⟩
    refine ⟨after, d :: fragments, found, hmemory, herrors, .inlined hd hname ?_⟩
    rw [spreadNames_fragmentDefinition, undefinedIn_fragmentDefinition] at hexplored
    exact hexplored

/-- Going on with a node that spreads no fragment visits its children and finds nothing else. -/
theorem visit_of_enter {n : Node} {m : Memory} (s : Schema) (doc : Document)
    (inlining : List String) (ancestors : List Node) (isRoot : Bool) (hn : n.spreadName? = none)
    (hdrop : visitor.drops isRoot n = false) (henter : enter n p.memory = (m, .proceed)) :
    let p₁ := visitAll visitor s doc inlining (n :: ancestors) n.children
      ⟨p.types.enter s n, m, p.errors⟩
    let p' := visit visitor s doc inlining ancestors isRoot n p
    p'.memory = leave n p₁.memory ∧
      p'.errors.map ValidationError.finding = p₁.errors.map ValidationError.finding := by
  intro p₁ p'
  have hunasked (spread : FragmentSpread) (h : n = .fragmentSpread spread) :
      visitor.visitsSpreads = false := by
    rw [h] at hn
    exact nomatch hn
  have hvisit : p' = leaveNode visitor s doc inlining ancestors n p₁ := by
    refine (visit_of_proceed hdrop henter).trans ?_
    rw [visitFragment_of_unasked hunasked]
  rw [hvisit]
  refine ⟨rfl, (Progress.map_finding_record _ n ancestors []).trans ?_⟩
  rw [List.map_nil, List.append_nil]

/-- Visiting the definition of a variable whose default value uses none adds the variable to those
that are defined, and finds nothing. -/
theorem visit_variableDefinition {d : VariableDefinition}
    (hdefault : ∀ value, d.defaultValue = some value → variablesIn [.ofValue value] = [])
    (s : Schema) (doc : Document) (ancestors : List Node) (p : Progress Memory)
    (hoperation : p.memory.operation = some operation) (hspread : p.memory.spread = []) :
    let p' := visit visitor s doc [] ancestors false (.variableDefinition d) p
    p'.memory = { p.memory with defined := d.name :: p.memory.defined } ∧
      p'.errors.map ValidationError.finding = p.errors.map ValidationError.finding := by
  intro p'
  let inside : Memory := { p.memory with defined := d.name :: p.memory.defined }
  have hinput (c : Node) (hc : c ∈ (Node.variableDefinition d).children) : c.isInput = true :=
    Node.isInput_of_mem_variableDefinition hc
  -- the variable defined here, its type and its default value make up the children
  have hown :
      undefinedIn (d.name :: p.memory.defined) (Node.variableDefinition d).children = [] := by
    show undefinedIn _
      (.variable d.name :: .ofType d.type :: d.defaultValue.toList.map .ofValue) = _
    rw [undefinedIn_cons, undefinedIn_variable, if_pos List.mem_cons_self, List.nil_append,
      undefinedIn_cons, undefinedIn_eq_nil _ (variablesIn_ofType d.type), List.nil_append]
    cases hvalue : d.defaultValue with
    | none => rfl
    | some value => exact undefinedIn_eq_nil _ (hdefault value hvalue)
  have hvisited := visitAll_visited s doc operation (d.name :: p.memory.defined) []
    (.variableDefinition d :: ancestors) (Node.variableDefinition d).children
    ⟨p.types.enter s (.variableDefinition d), inside, p.errors⟩
    (fun c hc => Node.isInner_of_isInput (hinput c hc)) ⟨hoperation, rfl, List.nil_subset _⟩
  rw [spreadNames_of_isInput hinput, hown] at hvisited
  obtain ⟨hmemory, herrors⟩ := hvisited.eq_of_no_spreads hspread
  obtain ⟨hmemory', herrors'⟩ := visit_of_enter (n := .variableDefinition d) (p := p) (m := inside)
    s doc [] ancestors false rfl rfl rfl
  exact ⟨hmemory'.trans hmemory, herrors'.trans herrors⟩

/-- Visiting the definitions of the variables of an operation makes them the defined ones. -/
theorem visitAll_variableDefinitions (s : Schema) (doc : Document) (ancestors : List Node)
    (ds : List VariableDefinition) (p : Progress Memory)
    (hdefaults : ∀ d ∈ ds, ∀ value, d.defaultValue = some value → variablesIn [.ofValue value] = [])
    (hoperation : p.memory.operation = some operation) (hspread : p.memory.spread = []) :
    let p' := visitAll visitor s doc [] ancestors (ds.map .variableDefinition) p
    p'.memory =
        { p.memory with defined := (ds.map VariableDefinition.name).reverse ++ p.memory.defined } ∧
      p'.errors.map ValidationError.finding = p.errors.map ValidationError.finding := by
  -- each definition is put in front, so the names end up in reverse
  induction ds generalizing p with
  | nil => exact ⟨rfl, rfl⟩
  | cons d ds ih =>
    obtain ⟨hdefault, hdefaults⟩ := List.forall_mem_cons.1 hdefaults
    obtain ⟨hmemory, herrors⟩ :=
      visit_variableDefinition hdefault s doc ancestors p hoperation hspread
    obtain ⟨hmemory', herrors'⟩ := ih (visit visitor s doc [] ancestors false
      (.variableDefinition d) p) hdefaults (by rw [hmemory, hoperation]) (by rw [hmemory, hspread])
    refine ⟨hmemory'.trans ?_, herrors'.trans herrors⟩
    rw [hmemory, List.map_cons, List.reverse_cons, List.append_assoc]
    rfl

/-- Visiting an operation outside all fragments finds what it gives rise to. -/
theorem visit_operationDefinition (s : Schema) (doc : Document) (ancestors : List Node)
    (operation : OperationDefinition) (p : Progress Memory)
    (hdefaults : ∀ d ∈ operation.variableDefinitions, ∀ value, d.defaultValue = some value →
      variablesIn [.ofValue value] = [])
    (hdepth : p.memory.fragmentDepth = 0) :
    let p' := visit visitor s doc [] ancestors false (.operationDefinition operation) p
    p'.memory.fragmentDepth = 0 ∧ ∃ report, IsReport doc operation report ∧
      p'.errors.map ValidationError.finding =
        p.errors.map ValidationError.finding ++ report := by
  intro p'
  -- `p₁` is where the children begin, `p₂` follows the variable definitions, `p₃` the body
  let chain := Node.operationDefinition operation :: ancestors
  let inside : Memory := { p.memory with defined := [], operation := some operation, spread := [] }
  let p₁ : Progress Memory := ⟨p.types.enter s (.operationDefinition operation), inside, p.errors⟩
  let p₂ := visitAll visitor s doc [] chain
    (operation.variableDefinitions.map .variableDefinition) p₁
  let p₃ := visitAll visitor s doc [] chain operation.body p₂
  obtain ⟨hmemory, herrors⟩ := visitAll_variableDefinitions s doc chain
    operation.variableDefinitions p₁ hdefaults rfl rfl
  have hvisited : Visited doc operation _ _ _ p₂ p₃ :=
    visitAll_visited s doc operation (definedBy operation).reverse [] chain operation.body p₂
      (fun _ => Node.isInner_of_mem_body) (by
        rw [hmemory]
        exact ⟨rfl, List.append_nil _, List.nil_subset _⟩)
  obtain ⟨hmemory', herrors'⟩ := visit_of_enter (n := .operationDefinition operation) (p := p)
    (m := inside) s doc [] ancestors false rfl rfl rfl
  rw [Node.children, List.append_assoc, visitAll_append] at hmemory' herrors'
  have hdepth₂ : p₂.memory.fragmentDepth = 0 := by
    rw [hmemory]
    exact hdepth
  refine ⟨?_, ?_⟩
  · rw [hmemory']
    exact hvisited.fragmentDepth.trans hdepth₂
  · obtain ⟨after, fragments, found, -, hfound, hexplored⟩ := hvisited
    have hspread : p₂.memory.spread = [] := by rw [hmemory]
    rw [hspread] at hexplored
    refine ⟨found, ⟨fragments, hexplored.nodup, ?_, ?_⟩, ?_⟩
    · intro d
      rw [hexplored.mem_iff_reached, OperationDefinition.body, spreadNames_body]
      rfl
    · -- the defined names were collected in reverse
      have hcongr (ns : List Node) : undefinedIn (definedBy operation).reverse ns =
          undefinedIn (definedBy operation) ns :=
        undefinedIn_congr (fun _ => List.mem_reverse) ns
      have hfinding : findingAt operation 0 = ownFinding := rfl
      simpa only [hcongr, hdepth₂, hfinding] using hexplored.found
    · exact herrors'.trans (hfound.trans (by rw [herrors]))

/-- Visiting the definitions of a document outside all fragments finds what its operations give rise
to. -/
theorem visitAll_definitions (s : Schema) (doc : Document) (ancestors : List Node)
    (ds : List Definition) (p : Progress Memory) (hdefaults : Document.PlainDefaults ⟨ds⟩)
    (hdepth : p.memory.fragmentDepth = 0) :
    let p' := visitAll visitor s doc [] ancestors (ds.map .ofDefinition) p
    ∃ reports, List.Forall₂ (IsReport doc) (Document.mk ds).operations reports ∧
      p'.errors.map ValidationError.finding =
        p.errors.map ValidationError.finding ++ reports.flatten := by
  induction ds generalizing p with
  | nil => exact ⟨[], .nil, (List.append_nil _).symm⟩
  | cons d ds ih =>
    cases d with
    | operation operation =>
      obtain ⟨hdefault, hdefaults⟩ := List.forall_mem_cons.1 hdefaults
      obtain ⟨hdepth', report, hreport, herrors⟩ :=
        visit_operationDefinition s doc ancestors operation p hdefault hdepth
      obtain ⟨reports, hreports, herrors'⟩ := ih _ hdefaults hdepth'
      refine ⟨report :: reports, .cons hreport hreports, ?_⟩
      rw [List.flatten_cons, ← List.append_assoc, ← herrors]
      exact herrors'
    | fragment d =>
      -- a fragment definition is passed by at the top of a document
      have hvisit : visit visitor s doc [] ancestors false (.fragmentDefinition d) p = p :=
        visit_of_drops rfl
      obtain ⟨reports, hreports, herrors⟩ := ih p hdefaults hdepth
      refine ⟨reports, hreports, ?_⟩
      rw [List.map_cons, visitAll, List.foldl_cons, Node.ofDefinition, hvisit]
      exact herrors

end Walk

/-- A document of two operations, one of them without a name, that share two fragments which spread
each other. A further fragment is spread nowhere. -/
def sharedCycle : Document :=
  let set : List Selection → SelectionSet := .mk .start .start
  let field (names : List String) : Selection :=
    .field ⟨.start, none, "f", names.map fun x => ⟨x, .variable x⟩, [], set []⟩
  let spread (name : String) : Selection := .spread ⟨.start, name, []⟩
  ⟨[.operation ⟨.start, .query, some "Q", [⟨.start, "a", .named "Int", some (.int 1)⟩], [],
      set [field ["a", "b"], spread "F", spread "F"]⟩,
    .operation ⟨.start, .query, none, [], [], set [spread "F"]⟩,
    .fragment ⟨.start, "F", "Query", [], set [field ["a"], spread "G"]⟩,
    .fragment ⟨.start, "G", "Query", [], set [field ["b"], spread "F"]⟩,
    .fragment ⟨.start, "H", "Query", [], set [field ["c"]]⟩]⟩

end Rules.NoUndefinedVariables

/-- On a document in which no default value uses a variable, the rule reports, operation by
operation, just the uses of variables that the operation does not define, each of them once: those
in its own directives and selection set, and those in the fragments that its spreads lead to. -/
theorem undefinedVariables_reported (s : Schema) (doc : Document) (h : doc.PlainDefaults) :
    ∃ reports, List.Forall₂ (IsReport doc) doc.operations reports ∧
      (s.validateWithRules doc [Rules.noUndefinedVariables]).map ValidationError.finding =
        reports.flatten := by
  let p : Progress Memory := visit visitor s doc [] [] true (.document doc) ⟨.empty, .start, []⟩
  have herrors : s.validateWithRules doc [Rules.noUndefinedVariables] = p.errors :=
    List.append_nil p.errors
  obtain ⟨-, hvisit⟩ := visit_of_enter (n := .document doc) (p := ⟨.empty, .start, []⟩) s doc [] []
    true rfl rfl rfl
  obtain ⟨reports, hreports, hfound⟩ := visitAll_definitions s doc [.document doc]
    doc.definitions ⟨.empty, .start, []⟩ h rfl
  refine ⟨reports, hreports, ?_⟩
  rw [herrors, hvisit]
  exact hfound

/-- The shared fragments are checked once for each of the two operations. -/
theorem undefinedVariables_reported_sharedCycle :
    let s : Schema := ⟨.empty, .empty, ⟨"Query", .builtIn⟩, none, none⟩
    sharedCycle.PlainDefaults ∧ ∃ reports,
      List.Forall₂ (IsReport sharedCycle) sharedCycle.operations reports ∧
      (s.validateWithRules sharedCycle [Rules.noUndefinedVariables]).map ValidationError.finding =
        reports.flatten := by
  have hdefaults : sharedCycle.PlainDefaults := by
    intro operation hoperation d hd value hvalue
    simp only [sharedCycle, Document.operations, List.filterMap_cons, List.filterMap_nil,
      List.mem_cons, List.not_mem_nil, or_false] at hoperation
    rcases hoperation with rfl | rfl
    · rw [List.mem_singleton.1 hd] at hvalue
      obtain rfl : Value.int 1 = value := Option.some.inj hvalue
      rw [variablesIn, occurrences_singleton]
      rfl
    · exact absurd hd List.not_mem_nil
  exact ⟨hdefaults, undefinedVariables_reported _ sharedCycle hdefaults⟩

end GraphQLCheck
