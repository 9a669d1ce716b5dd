import GraphQLCheck.Proofs.Document.Occurrences
import GraphQLCheck.Proofs.Traversal.Independence

/-!
# Rules that remember nothing but the way to a node

A visitor whose memory depends on the nodes around the current one alone has nothing to tell one
part of a document about another. `foundBelow` finds what such a visitor finds by plain recursion
over the tree, without a memory and without types that are kept in step with a walk: they are those
along the chain of nodes to which the recursion has come.

Main statement: a rule with such a visitor that does not have fragments visited at their spreads
finds just what the recursion finds (`Rule.errors_eq_foundBelow`).
-/

namespace GraphQLCheck

/-- The context of a node at the end of a chain, if no fragment is being visited at a spread. -/
def Context.along (s : Schema) (doc : Document) (chain : List Node) (n : Node) : Context :=
  ⟨s, doc, typesAlong s (n :: chain), chain, []⟩

/-- What is found at a node and below it, where `finds` says what is found at a node by itself,
given the nodes around it. Below a node at which something is found, nothing is looked for. -/
def foundBelow (finds : List Node → Node → List ValidationError) (chain : List Node) (n : Node) :
    List ValidationError :=
  match finds chain n with
  | [] => n.children.attach.flatMap fun c => foundBelow finds (n :: chain) c.1
  | errors => errors.map (·.orLocatedAt (nearestPosition n chain))
termination_by sizeOf n
decreasing_by exact Node.sizeOf_lt_of_mem_children c.2

section FoundBelow

variable {finds : List Node → Node → List ValidationError} {chain : List Node} {n : Node}

/-- Where nothing is found at a node by itself, what is found is what is found in its children. -/
theorem foundBelow_of_nil (h : finds chain n = []) :
    foundBelow finds chain n = n.children.flatMap (foundBelow finds (n :: chain)) := by
  rw [foundBelow, h]
  conv => rhs; rw [← List.attach_map_subtype_val n.children, List.flatMap_map]

/-- Where something is found at a node by itself, it is located there, and nothing else is found. -/
theorem foundBelow_of_ne_nil (h : finds chain n ≠ []) :
    foundBelow finds chain n = (finds chain n).map (·.orLocatedAt (nearestPosition n chain)) := by
  rw [foundBelow]
  split
  next hnil => exact absurd hnil h
  next => rfl

/-- Where nothing is found in the children of a node, what is found is what is found at the node by
itself. -/
theorem foundBelow_of_children (h : n.children.flatMap (foundBelow finds (n :: chain)) = []) :
    foundBelow finds chain n = (finds chain n).map (·.orLocatedAt (nearestPosition n chain)) := by
  by_cases hfinds : finds chain n = []
  · rw [foundBelow_of_nil hfinds, h, hfinds, List.map_nil]
  · exact foundBelow_of_ne_nil hfinds

/-- Nothing is found below a node if nothing is found at any node there. -/
theorem foundBelow_eq_nil (chain : List Node) (n : Node)
    (h : ∀ m ∈ n.subtree, ∀ chain, finds chain m = []) : foundBelow finds chain n = [] := by
  rw [Node.subtree_eq] at h
  obtain ⟨hn, hbelow⟩ := List.forall_mem_cons.1 h
  rw [foundBelow_of_nil (hn chain), List.flatMap_eq_nil_iff]
  exact fun c hc => foundBelow_eq_nil (n :: chain) c fun m hm =>
    hbelow m (List.mem_flatMap.2 ⟨c, hc, hm⟩)
termination_by sizeOf n
decreasing_by exact Node.sizeOf_lt_of_mem_children hc

/-- Nothing is found in some nodes if nothing is to be found at nodes of their sort, and below a
node of this sort there are only such nodes. -/
theorem flatMap_foundBelow_eq_nil {P : Node → Prop}
    (hchildren : ∀ n c, P n → c ∈ n.children → P c)
    (hfinds : ∀ n, P n → ∀ chain, finds chain n = []) {ns : List Node} (hns : ∀ n ∈ ns, P n)
    (chain : List Node) : ns.flatMap (foundBelow finds chain) = [] := by
  refine List.flatMap_eq_nil_iff.2 fun n hn => foundBelow_eq_nil chain n fun m hm => ?_
  exact hfinds m (Node.of_mem_subtree hchildren (hns n hn) hm)

end FoundBelow

section Local

variable {σ : Type} {v : Visitor σ} {s : Schema} {doc : Document} {memory : List Node → σ}
  {finds : List Node → Node → List ValidationError}

/-- Whether a visitor, if it remembers of the nodes around a node what `memory` says, reports what
is found at the node by itself, and goes on with the node if this is nothing. -/
structure Visitor.Local (v : Visitor σ) (s : Schema) (doc : Document) (memory : List Node → σ)
    (finds : List Node → Node → List ValidationError) : Prop where
  visitsSpreads : v.visitsSpreads = false
  proceed : ∀ chain n, finds chain n = [] →
    v.enter (.along s doc chain n) n (memory chain) = (memory (n :: chain), .proceed)
  report : ∀ chain n, finds chain n ≠ [] →
    v.enter (.along s doc chain n) n (memory chain) = (memory chain, .report (finds chain n))
  leave : ∀ chain n, v.leave (.along s doc chain n) n (memory (n :: chain)) = (memory chain, [])

/-- The visitor of a check is local if the check does. -/
theorem Visitor.local_ofCheck (s : Schema) (doc : Document)
    (check : Context → Node → List ValidationError) :
    (Visitor.ofCheck check).Local s doc (fun _ => ()) fun chain n =>
      check (.along s doc chain n) n where
  visitsSpreads := rfl
  proceed chain n h := by simp only [ofCheck, h]
  report chain n h := by
    simp only [ofCheck]
  leave _ _ := rfl

/-- A walk over some nodes finds what is found in each of them. -/
private theorem visitAll_eq_of_forall {chain ns : List Node}
    (h : ∀ n ∈ ns, ∀ p : Progress σ, p.types = typesAlong s chain → p.memory = memory chain →
      visit v s doc [] chain false n p = { p with errors := p.errors ++ foundBelow finds chain n })
    (p : Progress σ) (htypes : p.types = typesAlong s chain) (hmemory : p.memory = memory chain) :
    visitAll v s doc [] chain ns p =
      { p with errors := p.errors ++ ns.flatMap (foundBelow finds chain) } := by
  induction ns generalizing p with
  | nil => rw [List.flatMap_nil, List.append_nil]; rfl
  | cons n ns ih =>
    obtain ⟨hn, hns⟩ := List.forall_mem_cons.1 h
    have htail := ih hns { p with errors := p.errors ++ foundBelow finds chain n } htypes hmemory
    rw [visitAll_cons, hn p htypes hmemory, htail, List.flatMap_cons, List.append_assoc]

/-- A walk of a local visitor finds what is found below the node at which it begins, and leaves
everything else as it was. -/
theorem Visitor.Local.visit_eq (hv : v.Local s doc memory finds) (chain : List Node)
    (isRoot : Bool) (n : Node) (p : Progress σ) (htypes : p.types = typesAlong s chain)
    (hmemory : p.memory = memory chain) :
    visit v s doc [] chain isRoot n p =
      { p with errors := p.errors ++ foundBelow finds chain n } := by
  have hdrop : v.drops isRoot n = false := by simp [Visitor.drops, hv.visitsSpreads]
  have hcontext : (⟨s, doc, p.types.enter s n, chain, []⟩ : Context) = .along s doc chain n := by
    rw [Context.along, typesAlong_cons, htypes]
  by_cases hfinds : finds chain n = []
  · have henter : v.enter ⟨s, doc, p.types.enter s n, chain, []⟩ n p.memory =
        (memory (n :: chain), .proceed) := by
      rw [hcontext, hmemory]
      exact hv.proceed chain n hfinds
    have hinside : p.types.enter s n = typesAlong s (n :: chain) := by rw [typesAlong_cons, htypes]
    have hbelow : ∀ c ∈ n.children, ∀ q : Progress σ, q.types = typesAlong s (n :: chain) →
        q.memory = memory (n :: chain) → visit v s doc [] (n :: chain) false c q =
          { q with errors := q.errors ++ foundBelow finds (n :: chain) c } :=
      fun c hc q => hv.visit_eq (n :: chain) false c q
    have hchildren := visitAll_eq_of_forall hbelow
      ⟨p.types.enter s n, memory (n :: chain), p.errors⟩ hinside rfl
    rw [visit_of_proceed hdrop henter,
      visitFragment_of_unasked fun _ _ => hv.visitsSpreads, hchildren, foundBelow_of_nil hfinds]
    -- the memory is again what it was around the node
    refine (leaveNode_of_types (t := p.types) rfl ((congrArg (v.leave · n _) hcontext).trans
      (hv.leave chain n))).trans ?_
    rw [Progress.record, List.map_nil, List.append_nil, hmemory]
  · have henter : v.enter ⟨s, doc, p.types.enter s n, chain, []⟩ n p.memory =
        (memory chain, .report (finds chain n)) := by
      rw [hcontext, hmemory]
      exact hv.report chain n hfinds
    rw [visit_of_report hdrop henter, foundBelow_of_ne_nil hfinds, Progress.record, hmemory]
termination_by sizeOf n
decreasing_by exact Node.sizeOf_lt_of_mem_children hc

/-- A rule with a local visitor finds what is found below the document. -/
theorem Rule.errors_eq_foundBelow {rule : Rule} {memory : List Node → rule.Memory}
    (h : rule.visitor.Local s doc memory finds)
    (hstart : rule.start ⟨s, doc, .empty, [], []⟩ = memory []) :
    s.validateWithRules doc [rule] = foundBelow finds [] (.document doc) := by
  have hvisit := h.visit_eq [] true (.document doc) ⟨.empty, _, []⟩ rfl hstart
  rw [s.validateWithRules_eq_flatMap, List.flatMap_singleton, Rule.outcome, hvisit]
  exact List.nil_append _

end Local

end GraphQLCheck
