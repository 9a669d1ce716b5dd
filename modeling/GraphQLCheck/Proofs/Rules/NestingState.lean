import GraphQLCheck.Proofs.Rules.UndefinedVariables
import GraphQLCheck.Proofs.Rules.UnknownArguments
import GraphQLCheck.Proofs.Traversal.ObservedCalls

/-!
# How deep a rule takes itself to be

Two rules keep track of where they are by themselves. One counts the fragments that are being
visited around a node, and the other lists the fields and directives around it. They do so in
`enter` and `leave`, but there are nodes that a rule is not told of, and nodes that are entered and
never left. `depth_keepsAlong` and `owners_keepsAlong` say what the handlers of the two rules hand
on.

Main statement: before every call the count is that of the fragments being visited at their
spreads, and before every `enter` the list is that of the fields and directives around the node
(`nestingState_inStep`).
-/

namespace GraphQLCheck

namespace Rules

namespace NoUndefinedVariables

/-- The number of fragment definitions on a chain grows with each one that is entered. -/
theorem length_fragmentNames_cons (n : Node) (chain : List Node) :
    (Visitor.fragmentNames (n :: chain)).length =
      (Visitor.fragmentNames chain).length + if n.isFragmentDefinition then 1 else 0 := by
  cases n <;> rfl

/-- Entering the definition of a fragment is one level more. -/
theorem fragmentDepth_enter (n : Node) (m : Memory) :
    (enter n m).1.fragmentDepth = m.fragmentDepth + if n.isFragmentDefinition then 1 else 0 := by
  cases n with
  | «variable» name => exact congrArg Memory.fragmentDepth (enter_of_isInner rfl)
  | _ => rfl

/-- Leaving the definition of a fragment is one level less. -/
theorem fragmentDepth_leave (n : Node) (m : Memory) :
    (leave n m).fragmentDepth = m.fragmentDepth - if n.isFragmentDefinition then 1 else 0 := by
  cases n <;> rfl

/-- A spread is on the same level whether or not its fragment is asked for. -/
theorem fragmentDepth_inlineSpread (spread : FragmentSpread) (m : Memory) :
    (inlineSpread spread m).1.fragmentDepth = m.fragmentDepth := by
  rw [inlineSpread]
  split <;> rfl

/-- The depth is the number of fragment definitions that have been entered. -/
theorem depth_keepsAlong : noUndefinedVariables.visitor.KeepsAlong fun chain m =>
    m.fragmentDepth = (Visitor.fragmentNames chain).length where
  proceed ctx n m hm _ := by
    rw [length_fragmentNames_cons, ← hm]
    exact fragmentDepth_enter n m
  cutShort ctx n m hm hcut := by
    -- only a variable is not gone on with, and it leaves the memory as it is
    cases n with
    | «variable» name => exact (fragmentDepth_enter _ m).trans hm
    | _ => exact absurd rfl hcut
  leave ctx n m hm := by
    rw [length_fragmentNames_cons] at hm
    refine (fragmentDepth_leave n m).trans ?_
    rw [hm, Nat.add_sub_cancel]
  inlineSpread ctx spread m hm := (fragmentDepth_inlineSpread spread m).trans hm

end NoUndefinedVariables

namespace KnownArgumentNames

/-- Entering a node that can be given arguments puts it before the others. -/
theorem enter_fst (ctx : Context) (n : Node) (owners : List Node) :
    (enter ctx n owners).1 = if isOwner n then n :: owners else owners := by
  cases n with
  | argument a => exact congrArg Prod.fst (enter_argument ctx a owners)
  | _ => rfl

/-- The owners are the fields and directives that have been entered. -/
theorem owners_keepsAlong :
    knownArgumentNames.visitor.KeepsAlong fun chain owners => owners = chain.filter isOwner where
  proceed ctx n owners howners _ := by
    rw [List.filter_cons, ← howners]
    exact enter_fst ctx n owners
  cutShort ctx n owners howners hcut := by
    -- only an argument is not gone on with
    cases n with
    | argument a => exact (enter_fst ctx _ owners).trans howners
    | _ => exact absurd rfl hcut
  leave ctx n owners howners := by
    rw [howners]
    show KnownArgumentNames.leave n ((n :: ctx.ancestors).filter isOwner) = _
    rw [KnownArgumentNames.leave, List.filter_cons]
    split <;> rfl
  inlineSpread ctx spread owners howners := howners

end KnownArgumentNames

end Rules

/-- What is known of a call on the walk of the rule for undefined variables: the depth just before
and the fragments that are being visited at their spreads go by the same chain of nodes, up to the
node that is being entered. -/
theorem Rules.NoUndefinedVariables.depth_of_mem_observedCalls {s : Schema} {doc : Document}
    {types : TypeState} {call : ObservedCall Memory}
    (hcall : call ∈ noUndefinedVariables.observedCalls s doc types) :
    call.memory.fragmentDepth = (Visitor.fragmentNames call.entered).length ∧
      call.context.inlining = Visitor.fragmentNames call.path := by
  obtain ⟨hmemory, hstack⟩ := holds_of_observedCalls depth_keepsAlong s doc types rfl hcall
  exact ⟨hmemory, hstack.inlining_eq⟩

/-- Just before every call on the walk of the rule for undefined variables, its depth is the number
of fragments that are being visited at their spreads, where one that is being entered does not count
yet. So it is zero when an operation is entered, and positive when a fragment is left. Just before
every `enter` on the walk of the rule for unknown arguments, its list of owners, outermost first, is
that of the fields and directives around the node. The calls are those of the rule's own walk,
which observing them does not change. -/
theorem nestingState_inStep (s : Schema) (doc : Document) (types : TypeState) :
    let calls := Rules.noUndefinedVariables.observedCalls s doc types
    (∀ rule : Rule, visit rule.visitor s doc [] [] true (.document doc)
        ⟨types, rule.start ⟨s, doc, .empty, [], []⟩, []⟩ =
      (rule.observedWalk s doc types).restrict Prod.fst) ∧
    (∀ ctx n (m : Rules.NoUndefinedVariables.Memory), .enter ctx n m ∈ calls →
      (m.fragmentDepth + if n.isFragmentDefinition then 1 else 0) = ctx.inlining.length ∧
        ∀ d, n = .operationDefinition d → m.fragmentDepth = 0) ∧
    (∀ ctx n (m : Rules.NoUndefinedVariables.Memory), .leave ctx n m ∈ calls →
      m.fragmentDepth = ctx.inlining.length ∧
        (n.isFragmentDefinition = true → 0 < m.fragmentDepth)) ∧
    (∀ ctx spread (m : Rules.NoUndefinedVariables.Memory), .inlineSpread ctx spread m ∈ calls →
      m.fragmentDepth = ctx.inlining.length) ∧
    ∀ ctx n owners, .enter ctx n owners ∈ Rules.knownArgumentNames.observedCalls s doc types →
      Lineage doc (n :: ctx.ancestors) ∧
        owners.reverse = ctx.ancestors.reverse.filter Rules.KnownArgumentNames.isOwner := by
  intro calls
  refine ⟨fun rule => visit_observed rule.visitor s doc [] [] true _ ⟨types, (_, []), []⟩,
    fun ctx n m hcall => ?entered, fun ctx n m hcall => ?left, fun ctx spread m hcall => ?asked,
    fun ctx n owners hcall => ?given⟩
  case entered =>
    obtain ⟨hdepth, hinlining⟩ := Rules.NoUndefinedVariables.depth_of_mem_observedCalls hcall
    have hlength : (m.fragmentDepth + if n.isFragmentDefinition then 1 else 0) =
        ctx.inlining.length :=
      calc (m.fragmentDepth + if n.isFragmentDefinition then 1 else 0)
        _ = (Visitor.fragmentNames ctx.ancestors).length +
              if n.isFragmentDefinition then 1 else 0 := congrArg (· + _) hdepth
        _ = (Visitor.fragmentNames (n :: ctx.ancestors)).length :=
            (Rules.NoUndefinedVariables.length_fragmentNames_cons n ctx.ancestors).symm
        _ = ctx.inlining.length := congrArg List.length hinlining.symm
    refine ⟨hlength, ?_⟩
    rintro d rfl
    -- no fragment is visited around an operation, which is a child of the document
    obtain ⟨-, hstack⟩ := holds_of_observedCalls Rules.NoUndefinedVariables.depth_keepsAlong s doc
      types rfl hcall
    have hnone : ctx.inlining = [] := hstack.inlining_of_operation
    rw [hnone] at hlength
    exact hlength
  case left =>
    obtain ⟨hdepth, hinlining⟩ := Rules.NoUndefinedVariables.depth_of_mem_observedCalls hcall
    have hlength : m.fragmentDepth = (Visitor.fragmentNames (n :: ctx.ancestors)).length := hdepth
    refine ⟨hlength.trans (congrArg List.length hinlining.symm), fun hn => ?_⟩
    rw [hlength, Rules.NoUndefinedVariables.length_fragmentNames_cons, if_pos hn]
    exact Nat.succ_pos _
  case asked =>
    obtain ⟨hdepth, hinlining⟩ := Rules.NoUndefinedVariables.depth_of_mem_observedCalls hcall
    exact hdepth.trans (congrArg List.length hinlining.symm)
  case given =>
    obtain ⟨howners, hstack⟩ :=
      holds_of_observedCalls Rules.KnownArgumentNames.owners_keepsAlong s doc types rfl hcall
    refine ⟨hstack.lineage, ?_⟩
    rw [List.filter_reverse]
    exact congrArg List.reverse howners

namespace NestedSpreads

/-- A schema that defines nothing. -/
def schema : Schema := ⟨.empty, .empty, ⟨"Query", .builtIn⟩, none, none⟩

/-- An operation that spreads a fragment, which spreads one in which a directive stands on a field
of a field. -/
def document : Document :=
  let set : List Selection → SelectionSet := .mk .start .start
  let spread (name : String) : Selection := .spread ⟨.start, name, []⟩
  let inner : Selection := .field ⟨.start, none, "g", [], [⟨.start, "d", []⟩], set []⟩
  ⟨[.operation ⟨.start, .query, none, [], [], set [spread "F"]⟩,
    .fragment ⟨.start, "F", "Query", [], set [spread "G"]⟩,
    .fragment ⟨.start, "G", "Query", [], set [.field ⟨.start, none, "f", [], [], set [inner]⟩]⟩]⟩

/-- Whether a call leaves the inner fragment. -/
def leavesInner : ObservedCall Rules.NoUndefinedVariables.Memory → Bool
  | .leave ctx n _ => n.isFragmentDefinition && ctx.inlining = ["G", "F"]
  | _ => false

/-- Whether a call enters a directive, with two owners. -/
def entersDirective : ObservedCall (List Node) → Bool
  | .enter _ n owners => n.kind = "Directive" && owners.length = 2
  | _ => false

end NestedSpreads

open NestedSpreads in
/-- On the walk over that document the inner fragment is left at depth two, and the directive is
entered with two owners. -/
theorem nestingState_inStep_nestedSpreads :
    (∃ ctx n, ∃ m : Rules.NoUndefinedVariables.Memory,
      .leave ctx n m ∈ Rules.noUndefinedVariables.observedCalls schema document .empty ∧
        n.isFragmentDefinition = true ∧ ctx.inlining = ["G", "F"] ∧
        m.fragmentDepth = ctx.inlining.length ∧ 0 < m.fragmentDepth) ∧
    ∃ ctx n owners,
      .enter ctx n owners ∈ Rules.knownArgumentNames.observedCalls schema document .empty ∧
        n.kind = "Directive" ∧ owners.length = 2 ∧ Lineage document (n :: ctx.ancestors) ∧
        owners.reverse = ctx.ancestors.reverse.filter Rules.KnownArgumentNames.isOwner := by
  obtain ⟨-, -, hleft, -, hgiven⟩ := nestingState_inStep schema document .empty
  -- both calls are found by running the walks, over the memory that the rules say they have
  have hleave : (Rules.noUndefinedVariables.observedCalls schema document .empty).any
      leavesInner = true := by
    change (visit (Visitor.observed (σ := Rules.NoUndefinedVariables.Memory)
        Rules.noUndefinedVariables.visitor) schema document [] [] true (.document document)
      ⟨.empty, (.start, []), []⟩).memory.2.any leavesInner = true
    simp [document, leavesInner, Rules.noUndefinedVariables, Rules.NoUndefinedVariables.enter,
      Rules.NoUndefinedVariables.leave, Rules.NoUndefinedVariables.inlineSpread,
      Rules.NoUndefinedVariables.Memory.start, Visitor.observed, Visitor.drops, visit_eq,
      visitAll_cons, visitAll_nil, visitFragment, leaveNode, Progress.record, Progress.leaveTypes,
      Document.fragment?, Document.fragments, Node.children, Node.isFragmentDefinition,
      Node.ofDefinition, Node.ofSelection, -List.any_eq_true]
  have henter : (Rules.knownArgumentNames.observedCalls schema document .empty).any
      entersDirective = true := by
    change (visit (Visitor.observed (σ := List Node) Rules.knownArgumentNames.visitor) schema
      document [] [] true (.document document) ⟨.empty, ([], []), []⟩).memory.2.any
        entersDirective = true
    simp [document, entersDirective, Rules.knownArgumentNames, Rules.KnownArgumentNames.enter,
      Rules.KnownArgumentNames.isOwner, Rules.KnownArgumentNames.leave, Visitor.observed,
      Visitor.drops, visit_eq, visitAll_cons, visitAll_nil, visitFragment, leaveNode,
      Progress.record, Progress.leaveTypes, Node.children, Node.kind, Node.ofDefinition,
      Node.ofSelection, -List.any_eq_true]
  refine ⟨?_, ?_⟩
  · obtain ⟨call, hcall, hinner⟩ := List.any_eq_true.1 hleave
    cases call with
    | leave ctx n m =>
      obtain ⟨hn, hinlining⟩ := Bool.and_eq_true_iff.1 hinner
      obtain ⟨hdepth, hpositive⟩ := hleft ctx n m hcall
      exact ⟨ctx, n, m, hcall, hn, of_decide_eq_true hinlining, hdepth, hpositive hn⟩
    | _ => exact absurd hinner Bool.false_ne_true
  · obtain ⟨call, hcall, hdirective⟩ := List.any_eq_true.1 henter
    cases call with
    | enter ctx n owners =>
      obtain ⟨hn, howners⟩ := Bool.and_eq_true_iff.1 hdirective
      exact ⟨ctx, n, owners, hcall, of_decide_eq_true hn, of_decide_eq_true howners,
        hgiven ctx n owners hcall⟩
    | _ => exact absurd hdirective Bool.false_ne_true

end GraphQLCheck
