import GraphQLCheck.Proofs.Document.Occurrences
import GraphQLCheck.Proofs.Traversal.Calls
import GraphQLCheck.Proofs.Traversal.Expansion

/-!
# What a visitor remembers between the calls

`Visitor.observed` is the visitor that keeps, of every call that a walk makes to it, the arguments
and the memory as it was just before. At each of these calls the walk stands at the end of a
`WalkStack`: the nodes that have been entered and not yet left, together with the names of the
fragments that are being visited at their spreads.

Main statement: if each handler of a visitor hands on a relation between the nodes that have been
entered and the memory, then the relation holds just before every call (`holds_of_observedCalls`).
-/

namespace GraphQLCheck

/-- A call that a walk makes to a visitor, and the memory of the visitor just before. -/
inductive ObservedCall (σ : Type) where
  | enter (ctx : Context) (n : Node) (memory : σ)
  | leave (ctx : Context) (n : Node) (memory : σ)
  | inlineSpread (ctx : Context) (spread : FragmentSpread) (memory : σ)

namespace ObservedCall

variable {σ : Type}

/-- The context of a call. -/
def context : ObservedCall σ → Context
  | enter ctx _ _ | leave ctx _ _ | inlineSpread ctx _ _ => ctx

/-- The memory just before a call. -/
def memory : ObservedCall σ → σ
  | enter _ _ m | leave _ _ m | inlineSpread _ _ m => m

/-- The node that a call is about. -/
def node : ObservedCall σ → Node
  | enter _ n _ | leave _ n _ => n
  | inlineSpread _ spread _ => .fragmentSpread spread

/-- The node that a call is about and the nodes around it, innermost first. -/
def path (call : ObservedCall σ) : List Node := call.node :: call.context.ancestors

/-- The nodes that have been entered before a call and are yet to be left, innermost first. -/
def entered : ObservedCall σ → List Node
  | enter ctx _ _ => ctx.ancestors
  | leave ctx n _ => n :: ctx.ancestors
  | inlineSpread ctx spread _ => .fragmentSpread spread :: ctx.ancestors

end ObservedCall

/-- The chains of nodes at the end of which a walk over a document may stand, innermost node first,
while it visits the fragments of the given names at their spreads. A fragment is only entered from
a spread if fragments are visited there, and only from the document if they are not. -/
inductive WalkStack (doc : Document) (visitsSpreads : Bool) : List String → List Node → Prop
  | document : WalkStack doc visitsSpreads [] [.document doc]
  | child {inlining : List String} {n c : Node} {chain : List Node}
      (h : WalkStack doc visitsSpreads inlining (n :: chain)) (hc : c ∈ n.children)
      (hvisited : visitsSpreads = true → c.isFragmentDefinition = false) :
      WalkStack doc visitsSpreads inlining (c :: n :: chain)
  | fragment {inlining : List String} {spread : FragmentSpread} {d : FragmentDefinition}
      {chain : List Node} (hspreads : visitsSpreads = true)
      (hd : doc.fragment? spread.name = some d) (hname : spread.name ∉ inlining)
      (h : WalkStack doc visitsSpreads inlining (.fragmentSpread spread :: chain)) :
      WalkStack doc visitsSpreads (spread.name :: inlining)
        (.fragmentDefinition d :: .fragmentSpread spread :: chain)

/-- A node of a document with the nodes around it up to the document, innermost first. -/
inductive Lineage (doc : Document) : List Node → Prop
  | document : Lineage doc [.document doc]
  | child {n c : Node} {chain : List Node} (h : Lineage doc (n :: chain)) (hc : c ∈ n.children) :
      Lineage doc (c :: n :: chain)

namespace WalkStack

variable {doc : Document} {inlining : List String} {chain : List Node}

/-- The fragments being visited at their spreads are those whose definitions are on the chain. -/
theorem inlining_eq (h : WalkStack doc true inlining chain) :
    inlining = Visitor.fragmentNames chain := by
  induction h with
  | document => rfl
  | child _ _ hvisited ih =>
    exact ih.trans (Visitor.fragmentNames_cons_of_not (hvisited rfl) _).symm
  | @fragment inlining spread d chain _ hd _ _ ih =>
    obtain ⟨-, hname⟩ := Document.mem_of_fragment? hd
    rw [ih, ← hname]
    rfl

/-- Where no fragment is visited at a spread, each node is a child of the next one. -/
theorem lineage (h : WalkStack doc false inlining chain) : Lineage doc chain := by
  induction h with
  | document => exact .document
  | child _ hc _ ih => exact .child ih hc
  | fragment hspreads => exact nomatch hspreads

/-- The document is only at the bottom. -/
theorem eq_of_document {visitsSpreads : Bool} {doc' : Document}
    (h : WalkStack doc visitsSpreads inlining (.document doc' :: chain)) :
    inlining = [] ∧ chain = [] := by
  cases h with
  | document => exact ⟨rfl, rfl⟩
  | child _ hc _ => exact absurd hc (Node.document_not_mem_children _ _)

/-- An operation is entered from the document, and no fragment is being visited there. -/
theorem inlining_of_operation {visitsSpreads : Bool} {d : OperationDefinition}
    (h : WalkStack doc visitsSpreads inlining (.operationDefinition d :: chain)) :
    inlining = [] := by
  cases h with
  | child h hc _ =>
    obtain ⟨doc', rfl⟩ := Node.exists_document_of_operationDefinition_mem hc
    exact h.eq_of_document.1

end WalkStack

variable {σ : Type}

/-- The visitor that does the same, and keeps every call with the memory just before it, oldest
first. -/
def Visitor.observed (v : Visitor σ) : Visitor (σ × List (ObservedCall σ)) where
  enter ctx n m := (((v.enter ctx n m.1).1, m.2 ++ [.enter ctx n m.1]), (v.enter ctx n m.1).2)
  leave ctx n m := (((v.leave ctx n m.1).1, m.2 ++ [.leave ctx n m.1]), (v.leave ctx n m.1).2)
  visitsSpreads := v.visitsSpreads
  inlineSpread ctx spread m :=
    (((v.inlineSpread ctx spread m.1).1, m.2 ++ [.inlineSpread ctx spread m.1]),
      (v.inlineSpread ctx spread m.1).2)

/-- Observing a visitor does not change what it does. -/
theorem visit_observed (v : Visitor σ) (s : Schema) (doc : Document) (inlining : List String)
    (ancestors : List Node) (isRoot : Bool) (n : Node) (p : Progress (σ × List (ObservedCall σ))) :
    visit v s doc inlining ancestors isRoot n (p.restrict Prod.fst) =
      (visit v.observed s doc inlining ancestors isRoot n p).restrict Prod.fst := by
  have hextends : v.observed.Extends v Prod.fst :=
    ⟨fun _ _ _ => rfl, fun _ _ _ => rfl, rfl, fun _ _ _ => rfl⟩
  exact visit_of_extends hextends s doc inlining ancestors isRoot n p

/-- The walk of a rule over a document that begins with some types in effect, with every call
observed. -/
def Rule.observedWalk (rule : Rule) (s : Schema) (doc : Document) (types : TypeState) :
    Progress (rule.Memory × List (ObservedCall rule.Memory)) :=
  visit rule.visitor.observed s doc [] [] true (.document doc)
    ⟨types, (rule.start ⟨s, doc, .empty, [], []⟩, []), []⟩

/-- The calls that a walk of a rule over a document makes. -/
def Rule.observedCalls (rule : Rule) (s : Schema) (doc : Document) (types : TypeState) :
    List (ObservedCall rule.Memory) :=
  (rule.observedWalk s doc types).memory.2

/-- Whether the handlers of a visitor hand on a relation between the nodes that have been entered,
innermost first, and the memory. A node is only left, and only asked about as a spread, if the
visitor has gone on with it. -/
structure Visitor.KeepsAlong (v : Visitor σ) (I : List Node → σ → Prop) : Prop where
  proceed : ∀ ctx n m, I ctx.ancestors m → (v.enter ctx n m).2 = .proceed →
    I (n :: ctx.ancestors) (v.enter ctx n m).1
  cutShort : ∀ ctx n m, I ctx.ancestors m → (v.enter ctx n m).2 ≠ .proceed →
    I ctx.ancestors (v.enter ctx n m).1
  leave : ∀ ctx n m, I (n :: ctx.ancestors) m → I ctx.ancestors (v.leave ctx n m).1
  inlineSpread : ∀ ctx spread m, I (.fragmentSpread spread :: ctx.ancestors) m →
    I (.fragmentSpread spread :: ctx.ancestors) (v.inlineSpread ctx spread m).1

/-- Whether a relation holds just before a call, and the walk stands where its context says. -/
structure ObservedCall.Holds (I : List Node → σ → Prop) (doc : Document) (visitsSpreads : Bool)
    (call : ObservedCall σ) : Prop where
  memory : I call.entered call.memory
  stack : WalkStack doc visitsSpreads call.context.inlining call.path

/-- Whether a relation holds now at the end of a chain, and has held before all calls so far. -/
private structure HeldSoFar (I : List Node → σ → Prop) (doc : Document) (visitsSpreads : Bool)
    (chain : List Node) (p : Progress (σ × List (ObservedCall σ))) : Prop where
  now : I chain p.memory.1
  before : ∀ call ∈ p.memory.2, call.Holds I doc visitsSpreads

/-- A call before which the relation holds is one more, if the relation holds afterwards. -/
private theorem HeldSoFar.called {I : List Node → σ → Prop} {doc : Document} {visitsSpreads : Bool}
    {chain : List Node} {p p' : Progress (σ × List (ObservedCall σ))} (call : ObservedCall σ)
    (h : HeldSoFar I doc visitsSpreads call.entered p) (hmemory : call.memory = p.memory.1)
    (hstack : WalkStack doc visitsSpreads call.context.inlining call.path)
    (hcalls : p'.memory.2 = p.memory.2 ++ [call]) (hnow : I chain p'.memory.1) :
    HeldSoFar I doc visitsSpreads chain p' where
  now := hnow
  before := by
    rw [hcalls]
    exact List.forall_mem_append.2
      ⟨h.before, List.forall_mem_singleton.2 ⟨hmemory ▸ h.now, hstack⟩⟩

/-- A visit of a node hands on what the handlers hand on. -/
private theorem visit_heldSoFar {v : Visitor σ} {I : List Node → σ → Prop} (hv : v.KeepsAlong I)
    (s : Schema) (doc : Document) (inlining : List String) (chain : List Node) (isRoot : Bool)
    (n : Node) (p : Progress (σ × List (ObservedCall σ))) :
    (v.drops isRoot n = false → WalkStack doc v.visitsSpreads inlining (n :: chain)) →
      HeldSoFar I doc v.visitsSpreads chain p →
      HeldSoFar I doc v.visitsSpreads chain
        (visit v.observed s doc inlining chain isRoot n p) := by
  -- `P` and `Q` begin and end around the nodes, `R` inside the spread
  refine visit_induct (v := v.observed)
    (P := fun inlining chain isRoot n p p' =>
      (v.drops isRoot n = false → WalkStack doc v.visitsSpreads inlining (n :: chain)) →
      HeldSoFar I doc v.visitsSpreads chain p → HeldSoFar I doc v.visitsSpreads chain p')
    (Q := fun inlining chain ns p p' =>
      (∀ n ∈ ns, v.drops false n = false → WalkStack doc v.visitsSpreads inlining (n :: chain)) →
      HeldSoFar I doc v.visitsSpreads chain p → HeldSoFar I doc v.visitsSpreads chain p')
    (R := fun inlining chain n p p' => WalkStack doc v.visitsSpreads inlining (n :: chain) →
      HeldSoFar I doc v.visitsSpreads (n :: chain) p →
      HeldSoFar I doc v.visitsSpreads (n :: chain) p')
    { dropped := ?dropped, skipped := ?skipped, reported := ?reported, entered := ?entered
      nil := ?nil, cons := ?cons, unasked := ?unasked, refused := ?refused, inlined := ?inlined }
    inlining chain isRoot n p
  case dropped =>
    intro inlining chain isRoot n p hdrop hstack hp
    exact hp
  case skipped =>
    intro inlining chain isRoot n p m hdrop henter hstack hp
    obtain ⟨rfl, hskip⟩ := Prod.mk.inj henter
    let ctx : Context := ⟨s, doc, p.types.enter s n, chain, inlining⟩
    exact .called (.enter ctx n p.memory.1) hp rfl (hstack hdrop) rfl
      (hv.cutShort ctx n p.memory.1 hp.now fun hproceed => nomatch hskip.symm.trans hproceed)
  case reported =>
    intro inlining chain isRoot n p m errors hdrop henter hstack hp
    obtain ⟨rfl, hreport⟩ := Prod.mk.inj henter
    let ctx : Context := ⟨s, doc, p.types.enter s n, chain, inlining⟩
    exact .called (.enter ctx n p.memory.1) hp rfl (hstack hdrop) rfl
      (hv.cutShort ctx n p.memory.1 hp.now fun hproceed => nomatch hreport.symm.trans hproceed)
  case entered =>
    intro inlining chain isRoot n p m p₁ p₂ m' errors hdrop henter hR _ _ hQ hleave hstack hp
    obtain ⟨rfl, hproceed⟩ := Prod.mk.inj henter
    obtain ⟨rfl, -⟩ := Prod.mk.inj hleave
    let ctx : Context := ⟨s, doc, p.types.enter s n, chain, inlining⟩
    have hn := hstack hdrop
    -- after the call that enters the node, after the fragment that is spread, after the children
    have hp₁ := hR hn (.called (.enter ctx n p.memory.1) hp rfl hn rfl
      (hv.proceed ctx n p.memory.1 hp.now hproceed))
    have hp₂ := hQ (fun c hc hkept => .child hn hc fun hspreads => by
      simpa [Visitor.drops, hspreads] using hkept) hp₁
    exact .called (.leave ctx n p₂.memory.1) hp₂ rfl hn rfl
      (hv.leave ctx n p₂.memory.1 hp₂.now)
  case nil =>
    intro inlining chain p hns hp
    exact hp
  case cons =>
    intro inlining chain n ns p p₁ p₂ hP _ hQ hns hp
    have hp₁ := hP (hns n List.mem_cons_self) hp
    exact hQ (fun m hm => hns m (List.mem_cons_of_mem n hm)) hp₁
  case unasked =>
    intro inlining chain n p hn hstack hp
    exact hp
  case refused =>
    intro inlining chain spread p m inline hspreads hask hno hstack hp
    obtain ⟨rfl, -⟩ := Prod.mk.inj hask
    let ctx : Context := ⟨s, doc, p.types, chain, inlining⟩
    exact .called (.inlineSpread ctx spread p.memory.1) hp rfl hstack rfl
      (hv.inlineSpread ctx spread p.memory.1 hp.now)
  case inlined =>
    intro inlining chain spread d p m p' hspreads hask hmem hd hP hstack hp
    obtain ⟨rfl, -⟩ := Prod.mk.inj hask
    let ctx : Context := ⟨s, doc, p.types, chain, inlining⟩
    exact hP (fun _ => .fragment hspreads hd hmem hstack)
      (.called (.inlineSpread ctx spread p.memory.1) hp rfl hstack rfl
        (hv.inlineSpread ctx spread p.memory.1 hp.now))

/-- What the handlers of a rule hand on, and what holds at the start, holds just before every call
of the rule's walk. -/
theorem holds_of_observedCalls {rule : Rule} {I : List Node → rule.Memory → Prop}
    (hrule : rule.visitor.KeepsAlong I) (s : Schema) (doc : Document) (types : TypeState)
    (hstart : I [] (rule.start ⟨s, doc, .empty, [], []⟩)) {call : ObservedCall rule.Memory}
    (hcall : call ∈ rule.observedCalls s doc types) :
    call.Holds I doc rule.visitor.visitsSpreads :=
  (visit_heldSoFar hrule s doc [] [] true (.document doc)
    ⟨types, (rule.start ⟨s, doc, .empty, [], []⟩, []), []⟩ (fun _ => .document)
    ⟨hstart, fun _ h => absurd h List.not_mem_nil⟩).before call hcall

end GraphQLCheck
