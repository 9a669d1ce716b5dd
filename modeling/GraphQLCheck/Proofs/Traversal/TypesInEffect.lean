import GraphQLCheck.Proofs.Traversal.Calls
import GraphQLCheck.Validation.Validate

/-!
# The types in effect depend on the path alone

The types that a visitor sees at a node are those that result from entering, one after the other,
the nodes on the way from the document to it (`typesAlong`). A fragment that is visited at a spread
is reached through the spread. Skipped nodes, reported errors and inlined fragments before the node
leave nothing behind.

The way to a node is not read off what the walk says about itself: in a `Trace`, the way to a call
is made up of the nodes that have been entered and not yet left.
-/

namespace GraphQLCheck

/-- The types in effect at the end of a chain of nodes, innermost node first. -/
def typesAlong (s : Schema) (chain : List Node) : TypeState :=
  chain.foldr (fun n t => t.enter s n) .empty

/-- Above the root no types are in effect. -/
@[simp]
theorem typesAlong_nil (s : Schema) : typesAlong s [] = .empty := rfl

/-- Entering a node changes the types in effect at its parent. -/
@[simp]
theorem typesAlong_cons (s : Schema) (n : Node) (chain : List Node) :
    typesAlong s (n :: chain) = (typesAlong s chain).enter s n := rfl

/-- Whether a node may come next on a chain that begins at the document, innermost node first. -/
inductive Follows (doc : Document) : List Node → Node → Prop
  | document : Follows doc [] (.document doc)
  | child {chain : List Node} {n c : Node} (h : c ∈ n.children) : Follows doc (n :: chain) c
  | fragment {chain : List Node} {spread : FragmentSpread} {d : FragmentDefinition}
      (h : doc.fragment? spread.name = some d) :
      Follows doc (.fragmentSpread spread :: chain) (.fragmentDefinition d)

/-- The lists of calls that a visitor may receive at the end of a chain of nodes, innermost first.
Each node is entered with the types along the chain to it. If its visit is not cut short, then the
calls of the nodes inside it follow, at the end of the longer chain, and it is left with the very
context that it was entered with. -/
inductive Trace (s : Schema) (doc : Document) : List Node → List Call → Prop
  | nil {chain : List Node} : Trace s doc chain []
  | cutShort {chain : List Node} {ctx : Context} {n : Node} {rest : List Call}
      (hn : Follows doc chain n) (htypes : ctx.types = typesAlong s (n :: chain))
      (hrest : Trace s doc chain rest) : Trace s doc chain (.enter ctx n :: rest)
  | visited {chain : List Node} {ctx : Context} {n : Node} {inside rest : List Call}
      (hn : Follows doc chain n) (htypes : ctx.types = typesAlong s (n :: chain))
      (hinside : Trace s doc (n :: chain) inside) (hrest : Trace s doc chain rest) :
      Trace s doc chain (.enter ctx n :: (inside ++ .leave ctx n :: rest))

namespace Trace

variable {s : Schema} {doc : Document} {chain : List Node}

/-- Calls at the end of the same chain may follow each other. -/
theorem append {calls calls' : List Call} (h : Trace s doc chain calls)
    (h' : Trace s doc chain calls') : Trace s doc chain (calls ++ calls') := by
  -- only the end of the first list meets the second
  induction h with
  | nil => exact h'
  | cutShort hn htypes _ ih => exact .cutShort hn htypes (ih h')
  | visited hn htypes hinside _ _ ih =>
    rw [List.cons_append, List.append_assoc, List.cons_append]
    exact .visited hn htypes hinside (ih h')

end Trace

variable {σ : Type}

/-- The calls that a visit has added are a trace at the end of a chain. -/
private def AddsTrace (s : Schema) (doc : Document) (chain : List Node)
    (p p' : Progress (σ × List Call)) : Prop :=
  ∃ calls, p'.memory.2 = p.memory.2 ++ calls ∧ Trace s doc chain calls

/-- What is visited at the end of a chain, with the types along it in effect, adds a trace. -/
private theorem visit_addsTrace (v : Visitor σ) (s : Schema) (doc : Document)
    (inlining : List String) (chain : List Node) (isRoot : Bool) (n : Node)
    (p : Progress (σ × List Call)) :
    Follows doc chain n → p.types = typesAlong s chain →
      AddsTrace s doc chain p (visit v.watched s doc inlining chain isRoot n p) := by
  -- the invariant is that the types are those along the chain; `R` is at the end of the longer
  -- chain, since the fragment is visited before the spread is left
  refine visit_induct (v := v.watched)
    (P := fun _ chain _ n p p' => Follows doc chain n → p.types = typesAlong s chain →
      AddsTrace s doc chain p p')
    (Q := fun _ chain ns p p' => (∀ n ∈ ns, Follows doc chain n) → p.types = typesAlong s chain →
      AddsTrace s doc chain p p')
    (R := fun _ chain n p p' => p.types = typesAlong s (n :: chain) →
      AddsTrace s doc (n :: chain) p p')
    { dropped := ?dropped, skipped := ?skipped, reported := ?reported, entered := ?entered
      nil := ?nil, cons := ?cons, unasked := ?unasked, refused := ?refused, inlined := ?inlined }
    inlining chain isRoot n p
  case dropped =>
    intro inlining chain isRoot n p hdrop hn htypes
    exact ⟨[], (List.append_nil _).symm, .nil⟩
  case skipped =>
    intro inlining chain isRoot n p m hdrop henter hn htypes
    obtain ⟨rfl, -⟩ := Prod.mk.inj henter
    exact ⟨[_], rfl, .cutShort hn (htypes ▸ rfl) .nil⟩
  case reported =>
    intro inlining chain isRoot n p m errors hdrop henter hn htypes
    obtain ⟨rfl, -⟩ := Prod.mk.inj henter
    exact ⟨[_], rfl, .cutShort hn (htypes ▸ rfl) .nil⟩
  case entered =>
    intro inlining chain isRoot n p m p₁ p₂ m' errors hdrop henter hR htypes₁ htypes₂ hQ hleave
      hn htypes
    obtain ⟨rfl, -⟩ := Prod.mk.inj henter
    obtain ⟨rfl, -⟩ := Prod.mk.inj hleave
    have hinside : p.types.enter s n = typesAlong s (n :: chain) := htypes ▸ rfl
    -- the calls of the inlined fragment, then those of the children
    obtain ⟨calls₁, hcalls₁, htrace₁⟩ := hR hinside
    obtain ⟨calls₂, hcalls₂, htrace₂⟩ := hQ (fun c hc => .child hc) (htypes₁.trans hinside)
    let ctx : Context := ⟨s, doc, p.types.enter s n, chain, inlining⟩
    refine ⟨.enter ctx n :: ((calls₁ ++ calls₂) ++ [.leave ctx n]), ?_,
      .visited hn hinside (htrace₁.append htrace₂) .nil⟩
    calc p₂.memory.2 ++ [.leave ctx n]
      _ = p.memory.2 ++ [.enter ctx n] ++ calls₁ ++ calls₂ ++ [.leave ctx n] := by
          rw [hcalls₂, hcalls₁]
      _ = p.memory.2 ++ .enter ctx n :: (calls₁ ++ calls₂ ++ [.leave ctx n]) := by
          simp only [List.append_assoc, List.cons_append, List.nil_append]
  case nil =>
    intro inlining chain p hns htypes
    exact ⟨[], (List.append_nil _).symm, .nil⟩
  case cons =>
    intro inlining chain n ns p p₁ p₂ hP htypes₁ hQ hns htypes
    obtain ⟨calls₁, hcalls₁, htrace₁⟩ := hP (hns n List.mem_cons_self) htypes
    obtain ⟨calls₂, hcalls₂, htrace₂⟩ :=
      hQ (fun m hm => hns m (List.mem_cons_of_mem n hm)) (htypes₁.trans htypes)
    refine ⟨calls₁ ++ calls₂, ?_, htrace₁.append htrace₂⟩
    rw [hcalls₂, hcalls₁, List.append_assoc]
  case unasked =>
    intro inlining chain n p hn htypes
    exact ⟨[], (List.append_nil _).symm, .nil⟩
  case refused =>
    intro inlining chain spread p m inline hspreads hask hno htypes
    obtain ⟨rfl, -⟩ := Prod.mk.inj hask
    exact ⟨[], (List.append_nil _).symm, .nil⟩
  case inlined =>
    intro inlining chain spread d p m p' hspreads hask hmem hd hP htypes
    obtain ⟨rfl, -⟩ := Prod.mk.inj hask
    exact hP (.fragment hd) htypes

/-- The types in effect after the walks of some rules, one after the other. -/
def Schema.typesAfter (s : Schema) (doc : Document) (types : TypeState) :
    List StartedRule → TypeState
  | [] => types
  | ⟨rule, memory⟩ :: rest =>
    s.typesAfter doc
      (visit rule.visitor s doc [] [] true (.document doc) ⟨types, memory, []⟩).types rest

/-- The walks of rules leave the types in effect as they were. -/
@[simp]
theorem Schema.typesAfter_eq (s : Schema) (doc : Document) (types : TypeState)
    (rules : List StartedRule) : s.typesAfter doc types rules = types := by
  induction rules with
  | nil => rfl
  | cons r rest ih => rw [typesAfter, visit_types, ih]

/-- The later ones of some rules begin their walks with the types that the earlier ones leave. -/
theorem Schema.runFrom_append (s : Schema) (doc : Document) (types : TypeState)
    (before after : List StartedRule) :
    s.runFrom doc types (before ++ after) =
      s.runFrom doc types before ++ s.runFrom doc (s.typesAfter doc types before) after := by
  induction before generalizing types with
  | nil => rfl
  | cons r rest ih => rw [List.cons_append, runFrom, runFrom, ih, typesAfter, List.cons_append]

/-- Whatever rules are run and whatever their visitors do, a visitor sees at each node it enters,
and again when it leaves the node, the types along the way from the document to it. All stacks are
empty when a rule begins its walk and when it ends it, and a visit of any node, cut short or not,
restores the contents of all stacks. -/
theorem types_eq_typesAlong (s : Schema) (doc : Document) (before after : List StartedRule)
    (r : StartedRule) :
    let types := s.typesAfter doc .empty before
    let p := visit r.rule.visitor.watched s doc [] [] true (.document doc)
      ⟨types, (r.memory, []), []⟩
    s.runFrom doc .empty (before ++ r :: after) =
        s.runFrom doc .empty before ++
          ⟨r.rule.name, p.errors, r.rule.notes p.memory.1⟩ :: s.runFrom doc p.types after ∧
      types = .empty ∧ p.types = .empty ∧ Trace s doc [] p.memory.2 ∧
      ∀ inlining ancestors isRoot n q,
        (visit r.rule.visitor s doc inlining ancestors isRoot n q).types = q.types := by
  intro types p
  have hbegin : types = .empty := s.typesAfter_eq doc .empty before
  have hend : p.types = .empty := (visit_types ..).trans hbegin
  -- the run itself is stated for the visitor that is not watched
  refine ⟨?_, hbegin, hend, ?_, fun _ _ _ _ _ => visit_types ..⟩
  · have hwalk : visit r.rule.visitor s doc [] [] true (.document doc) ⟨types, r.memory, []⟩ =
        p.unwatched := visit_watched r.rule.visitor s doc [] [] true (.document doc)
      ⟨types, (r.memory, []), []⟩
    rw [s.runFrom_append, Schema.runFrom]
    exact hwalk ▸ rfl
  · obtain ⟨calls, hcalls, htrace⟩ := visit_addsTrace r.rule.visitor s doc [] [] true
      (.document doc) ⟨types, (r.memory, []), []⟩ .document hbegin
    rw [List.nil_append] at hcalls
    exact hcalls ▸ htrace

end GraphQLCheck
