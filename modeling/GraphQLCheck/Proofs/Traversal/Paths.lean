import GraphQLCheck.Proofs.Document.Occurrences
import GraphQLCheck.Proofs.Traversal.TypesInEffect

/-!
# The ways on which a walk comes to its nodes

A call of a visitor is at the end of a chain of nodes: the node that the call is about, and its
ancestors. `Way` says which chains lead on from the node at which a walk begins, and `Reached`
which of them a visitor comes to that goes on everywhere.

Main statements: what a visitor keeps at the ends of such ways is kept by a walk (`visit_keeps`),
every call is at the end of such a way, and sees the types along it (`at_of_mem_callsOver`), and a
visitor that goes on everywhere is called at the end of every way that is reached
(`exists_call_of_reached`).
-/

namespace GraphQLCheck

namespace Call

/-- The node that a call is about. -/
def node : Call → Node
  | enter _ n | leave _ n => n

/-- The context of a call. -/
def context : Call → Context
  | enter ctx _ | leave ctx _ => ctx

/-- The node that a call is about and the nodes around it, innermost first. -/
def path (call : Call) : List Node := call.node :: call.context.ancestors

end Call

/-- The calls that a visitor receives on a walk that begins at a node, with no types in effect. -/
def Visitor.callsOver {σ : Type} (v : Visitor σ) (s : Schema) (doc : Document) (n : Node)
    (memory : σ) : List Call :=
  (visit v.watched s doc [] [] true n ⟨.empty, (memory, []), []⟩).memory.2

/-- The chains of nodes that lead on from a chain, innermost node first. -/
inductive Way (doc : Document) (top : List Node) : List Node → Prop
  | here : Way doc top top
  | step {chain : List Node} {n : Node} (h : Way doc top chain) (hn : Follows doc chain n) :
      Way doc top (n :: chain)

/-- A way from the document is a way up to the last node but one, which the last one follows. -/
theorem Way.of_cons {doc : Document} {chain : List Node} {n : Node}
    (h : Way doc [] (n :: chain)) : Way doc [] chain ∧ Follows doc chain n := by
  cases h with
  | step h hn => exact ⟨h, hn⟩

/-- A way to a node leads on to everything below the node. -/
theorem Way.exists_of_mem_subtree {doc : Document} {top chain : List Node} {n m : Node}
    (h : Way doc top (n :: chain)) (hm : m ∈ n.subtree) :
    ∃ outside, Way doc top (m :: outside) := by
  rw [Node.subtree_eq] at hm
  rcases List.mem_cons.1 hm with rfl | hm
  · exact ⟨chain, h⟩
  · obtain ⟨c, hc, hm⟩ := List.mem_flatMap.1 hm
    exact exists_of_mem_subtree (.step h (.child hc)) hm
termination_by sizeOf n
decreasing_by exact Node.sizeOf_lt_of_mem_children hc

/-- Whether a context is that of a node at the end of a way, and shows the types along it. -/
structure Context.At (ctx : Context) (s : Schema) (doc : Document) (top : List Node) (n : Node) :
    Prop where
  schema : ctx.schema = s
  document : ctx.document = doc
  way : Way doc top (n :: ctx.ancestors)
  types : ctx.types = typesAlong s (n :: ctx.ancestors)

section Keeping

variable {σ : Type} {s : Schema} {doc : Document} {top : List Node}

/-- Whether a visitor keeps a condition on its memory, at the nodes to which a walk comes. -/
structure Visitor.Keeps (v : Visitor σ) (s : Schema) (doc : Document) (top : List Node)
    (I : σ → Prop) : Prop where
  enter : ∀ ctx n m, ctx.At s doc top n → I m → I (v.enter ctx n m).1
  leave : ∀ ctx n m, ctx.At s doc top n → I m → I (v.leave ctx n m).1
  inlineSpread : ∀ ctx spread m, I m → I (v.inlineSpread ctx spread m).1

/-- The context in which a node is entered on a way. -/
private theorem at_of_way {chain : List Node} {n : Node} {types : TypeState}
    (inlining : List String) (hway : Way doc top (n :: chain))
    (htypes : types = typesAlong s chain) :
    (⟨s, doc, types.enter s n, chain, inlining⟩ : Context).At s doc top n where
  schema := rfl
  document := rfl
  way := hway
  types := by rw [typesAlong_cons, htypes]

/-- What a visitor keeps at the nodes to which a walk comes is kept by a visit. -/
theorem visit_keeps {v : Visitor σ} {I : σ → Prop} (hv : v.Keeps s doc top I)
    (inlining : List String) (chain : List Node) (isRoot : Bool) (n : Node) (p : Progress σ) :
    Way doc top (n :: chain) → p.types = typesAlong s chain → I p.memory →
      I (visit v s doc inlining chain isRoot n p).memory := by
  -- the types are those along the way; `R` is about the fragment inside the spread
  refine visit_induct (v := v)
    (P := fun _ chain _ n p p' => Way doc top (n :: chain) → p.types = typesAlong s chain →
      I p.memory → I p'.memory)
    (Q := fun _ chain ns p p' => (∀ n ∈ ns, Way doc top (n :: chain)) →
      p.types = typesAlong s chain → I p.memory → I p'.memory)
    (R := fun _ chain n p p' => Way doc top (n :: chain) → p.types = typesAlong s (n :: chain) →
      I p.memory → I p'.memory)
    { dropped := ?dropped, skipped := ?skipped, reported := ?reported, entered := ?entered
      nil := ?nil, cons := ?cons, unasked := ?unasked, refused := ?refused, inlined := ?inlined }
    inlining chain isRoot n p
  case dropped =>
    intro inlining chain isRoot n p hdrop hway htypes hp
    exact hp
  case skipped =>
    intro inlining chain isRoot n p m hdrop henter hway htypes hp
    have hm := hv.enter _ n p.memory (at_of_way inlining hway htypes) hp
    rw [henter] at hm
    exact hm
  case reported =>
    intro inlining chain isRoot n p m errors hdrop henter hway htypes hp
    have hm := hv.enter _ n p.memory (at_of_way inlining hway htypes) hp
    rw [henter] at hm
    exact hm
  case entered =>
    intro inlining chain isRoot n p m p₁ p₂ m' errors hdrop henter hR htypes₁ htypes₂ hQ hleave
      hway htypes hp
    have hat := at_of_way inlining hway htypes
    have hm := hv.enter _ n p.memory hat hp
    rw [henter] at hm
    have hinside : p.types.enter s n = typesAlong s (n :: chain) := hat.types
    have hp₁ := hR hway hinside hm
    have hp₂ := hQ (fun c hc => .step hway (.child hc)) (htypes₁.trans hinside) hp₁
    have hm' := hv.leave _ n p₂.memory hat hp₂
    rw [hleave] at hm'
    exact hm'
  case nil =>
    intro inlining chain p hways htypes hp
    exact hp
  case cons =>
    intro inlining chain n ns p p₁ p₂ hP htypes₁ hQ hways htypes hp
    have hp₁ := hP (hways n List.mem_cons_self) htypes hp
    exact hQ (fun m hm => hways m (List.mem_cons_of_mem n hm)) (htypes₁.trans htypes) hp₁
  case unasked =>
    intro inlining chain n p hn hway htypes hp
    exact hp
  case refused =>
    intro inlining chain spread p m inline hspreads hask hno hway htypes hp
    have hm := hv.inlineSpread ⟨s, doc, p.types, chain, inlining⟩ spread p.memory hp
    rw [hask] at hm
    exact hm
  case inlined =>
    intro inlining chain spread d p m p' hspreads hask hmem hd hP hway htypes hp
    have hm := hv.inlineSpread ⟨s, doc, p.types, chain, inlining⟩ spread p.memory hp
    rw [hask] at hm
    exact hP (.step hway (.fragment hd)) htypes hm

/-- A walk that begins at a node calls the visitor at the ends of ways from there, where it sees the
types along them. -/
theorem at_of_mem_callsOver {v : Visitor σ} {n : Node} {memory : σ} {call : Call}
    (hway : Way doc top [n]) (hcall : call ∈ v.callsOver s doc n memory) :
    call.context.At s doc top call.node := by
  have hkeeps : v.watched.Keeps s doc top
      fun m => ∀ call ∈ m.2, call.context.At s doc top call.node :=
    { enter := fun ctx n m hat hm =>
        List.forall_mem_append.2 ⟨hm, List.forall_mem_singleton.2 hat⟩
      leave := fun ctx n m hat hm =>
        List.forall_mem_append.2 ⟨hm, List.forall_mem_singleton.2 hat⟩
      inlineSpread := fun ctx spread m hm => hm }
  exact visit_keeps hkeeps [] [] true n ⟨.empty, (memory, []), []⟩ hway rfl
    (fun _ h => absurd h List.not_mem_nil) call hcall

end Keeping

section Reached

variable {σ : Type}

/-- Whether a visitor goes on at every node, and has every fragment visited. -/
structure Visitor.GoesOn (v : Visitor σ) : Prop where
  enter : ∀ ctx n m, (v.enter ctx n m).2 = .proceed
  inline : ∀ ctx spread m, (v.inlineSpread ctx spread m).2 = true

/-- The visitor that does nothing goes on everywhere. -/
theorem Visitor.idle_goesOn : (idle : Visitor σ).GoesOn :=
  ⟨fun _ _ _ => rfl, fun _ _ _ => rfl⟩

/-- The chains to which a visitor comes from a chain, if it goes on everywhere. The names are those
of the fragments that are being visited at their spreads. -/
inductive Reached (doc : Document) (visitsSpreads : Bool) :
    List String → List Node → List Node → Prop
  | here {inlining : List String} {n : Node} {chain : List Node} :
      Reached doc visitsSpreads inlining (n :: chain) (n :: chain)
  | child {inlining : List String} {n c : Node} {chain path : List Node} (hc : c ∈ n.children)
      (hvisited : visitsSpreads = true → c.isFragmentDefinition = false)
      (h : Reached doc visitsSpreads inlining (c :: n :: chain) path) :
      Reached doc visitsSpreads inlining (n :: chain) path
  | fragment {inlining : List String} {spread : FragmentSpread} {d : FragmentDefinition}
      {chain path : List Node} (hspreads : visitsSpreads = true)
      (hd : doc.fragment? spread.name = some d) (hname : spread.name ∉ inlining)
      (h : Reached doc visitsSpreads (spread.name :: inlining)
        (.fragmentDefinition d :: .fragmentSpread spread :: chain) path) :
      Reached doc visitsSpreads inlining (.fragmentSpread spread :: chain) path

/-- A further child is reached from where its parent is. -/
theorem Reached.concat {doc : Document} {visitsSpreads : Bool} {inlining : List String}
    {top chain : List Node} {n c : Node} (h : Reached doc visitsSpreads inlining top (n :: chain))
    (hc : c ∈ n.children) (hvisited : visitsSpreads = true → c.isFragmentDefinition = false) :
    Reached doc visitsSpreads inlining top (c :: n :: chain) := by
  generalize hpath : n :: chain = path at h
  induction h with
  | here =>
    obtain ⟨rfl, rfl⟩ := List.cons.inj hpath
    exact .child hc hvisited .here
  | child hc' hvisited' _ ih => exact .child hc' hvisited' (ih hpath)
  | fragment hspreads hd hname _ ih => exact .fragment hspreads hd hname (ih hpath)

/-- Whether a visitor has been called at the end of a chain. -/
private def CalledAt (path : List Node) (p : Progress (σ × List Call)) : Prop :=
  ∃ call ∈ p.memory.2, call.path = path

/-- Calls that have been received stay. -/
private theorem CalledAt.mono {path : List Node} {p p' : Progress (σ × List Call)}
    (h : CalledAt path p) (hsubset : p.memory.2 ⊆ p'.memory.2) : CalledAt path p' := by
  obtain ⟨call, hcall, hpath⟩ := h
  exact ⟨call, hsubset hcall, hpath⟩

/-- A visitor that goes on everywhere is called at the end of every chain that is reached. -/
private theorem visit_called {v : Visitor σ} (hv : v.GoesOn) (s : Schema) (doc : Document)
    (inlining : List String) (chain : List Node) (isRoot : Bool) (n : Node)
    (p : Progress (σ × List Call)) :
    let p' := visit v.watched s doc inlining chain isRoot n p
    p.memory.2 ⊆ p'.memory.2 ∧ (v.drops isRoot n = false →
      ∀ path, Reached doc v.visitsSpreads inlining (n :: chain) path → CalledAt path p') := by
  -- a chain is reached at its top, through a child, or through the fragment that is spread there
  refine visit_induct (v := v.watched)
    (P := fun inlining chain isRoot n p p' => p.memory.2 ⊆ p'.memory.2 ∧
      (v.drops isRoot n = false →
        ∀ path, Reached doc v.visitsSpreads inlining (n :: chain) path → CalledAt path p'))
    (Q := fun inlining chain ns p p' => p.memory.2 ⊆ p'.memory.2 ∧
      ∀ n ∈ ns, v.drops false n = false →
        ∀ path, Reached doc v.visitsSpreads inlining (n :: chain) path → CalledAt path p')
    (R := fun inlining chain n p p' => p.memory.2 ⊆ p'.memory.2 ∧
      ∀ spread d, n = .fragmentSpread spread → v.visitsSpreads = true →
        doc.fragment? spread.name = some d → spread.name ∉ inlining →
        ∀ path, Reached doc v.visitsSpreads (spread.name :: inlining)
          (.fragmentDefinition d :: n :: chain) path → CalledAt path p')
    { dropped := ?dropped, skipped := ?skipped, reported := ?reported, entered := ?entered
      nil := ?nil, cons := ?cons, unasked := ?unasked, refused := ?refused, inlined := ?inlined }
    inlining chain isRoot n p
  case dropped =>
    intro inlining chain isRoot n p hdrop
    refine ⟨List.Subset.refl _, fun hkept => ?_⟩
    exact absurd (hdrop.symm.trans hkept) (by decide)
  case skipped =>
    intro inlining chain isRoot n p m hdrop henter
    obtain ⟨-, hskip⟩ := Prod.mk.inj henter
    exact nomatch (hv.enter _ n p.memory.1).symm.trans hskip
  case reported =>
    intro inlining chain isRoot n p m errors hdrop henter
    obtain ⟨-, hreport⟩ := Prod.mk.inj henter
    exact nomatch (hv.enter _ n p.memory.1).symm.trans hreport
  case entered =>
    intro inlining chain isRoot n p m p₁ p₂ m' errors hdrop henter hR _ _ hQ hleave
    obtain ⟨rfl, -⟩ := Prod.mk.inj henter
    obtain ⟨rfl, -⟩ := Prod.mk.inj hleave
    obtain ⟨hsubset₁, hfragment⟩ := hR
    obtain ⟨hsubset₂, hchildren⟩ := hQ
    have hinside := List.Subset.trans hsubset₁ hsubset₂
    refine ⟨fun call hcall => ?_, fun _ path hpath => ?_⟩
    · exact List.mem_append_left _ (hinside (List.mem_append_left _ hcall))
    cases hpath with
    | here =>
      have hcall := hinside (List.mem_append_right _ (List.mem_singleton.2 rfl))
      exact ⟨_, List.mem_append_left _ hcall, rfl⟩
    | @child _ _ c _ _ hc hvisited h =>
      have hdrop : v.drops false c = false := by
        cases hspreads : v.visitsSpreads with
        | false => simp [Visitor.drops, hspreads]
        | true => simp [Visitor.drops, hvisited hspreads]
      exact (hchildren _ hc hdrop path h).mono (List.subset_append_left _ _)
    | fragment hspreads hd hname h =>
      have hcalled := hfragment _ _ rfl hspreads hd hname path h
      exact (hcalled.mono hsubset₂).mono (List.subset_append_left _ _)
  case nil =>
    intro inlining chain p
    exact ⟨List.Subset.refl _, fun n hn => absurd hn List.not_mem_nil⟩
  case cons =>
    intro inlining chain n ns p p₁ p₂ hP _ hQ
    obtain ⟨hsubset₁, hn⟩ := hP
    obtain ⟨hsubset₂, hns⟩ := hQ
    refine ⟨List.Subset.trans hsubset₁ hsubset₂, fun m hm hdrop path hpath => ?_⟩
    rcases List.mem_cons.1 hm with rfl | hm
    · exact (hn hdrop path hpath).mono hsubset₂
    · exact hns m hm hdrop path hpath
  case unasked =>
    intro inlining chain n p hn
    refine ⟨List.Subset.refl _, fun spread d heq hspreads => ?_⟩
    exact absurd ((hn spread heq).symm.trans hspreads) (by decide)
  case refused =>
    intro inlining chain spread p m inline hspreads hask hno
    obtain ⟨rfl, hinline⟩ := Prod.mk.inj hask
    refine ⟨List.Subset.refl _, fun spread' d heq _ hd hname => ?_⟩
    obtain rfl := Node.fragmentSpread.inj heq
    -- the fragment would be visited, so there is none
    have hnone := hno (hinline.symm.trans (hv.inline _ _ _)) hname
    exact absurd (hnone.symm.trans hd) (by simp)
  case inlined =>
    intro inlining chain spread d p m p' hspreads hask hmem hd hP
    obtain ⟨rfl, -⟩ := Prod.mk.inj hask
    obtain ⟨hsubset, hcalled⟩ := hP
    refine ⟨hsubset, fun spread' d' heq _ hd' _ path hpath => ?_⟩
    obtain rfl := Node.fragmentSpread.inj heq
    obtain rfl := Option.some.inj (hd.symm.trans hd')
    exact hcalled (by simp [Visitor.drops]) path hpath

/-- A visitor that goes on everywhere is called at the end of every chain that is reached from the
node at which its walk begins. -/
theorem exists_call_of_reached {v : Visitor σ} (hv : v.GoesOn) (s : Schema) {doc : Document}
    {n : Node} {path : List Node} (memory : σ) (h : Reached doc v.visitsSpreads [] [n] path) :
    ∃ call ∈ v.callsOver s doc n memory, call.path = path := by
  obtain ⟨-, hcalled⟩ := visit_called hv s doc [] [] true n ⟨.empty, (memory, []), []⟩
  exact hcalled (by simp [Visitor.drops]) path h

end Reached

end GraphQLCheck
