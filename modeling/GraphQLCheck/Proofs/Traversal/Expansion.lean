import GraphQLCheck.Node.Walk
import GraphQLCheck.Proofs.Traversal.TypesInEffect

/-!
# Visiting fragments at their spreads is a plain walk over an expanded tree

`expand` makes a finite tree of a document: the fragment definitions are taken from under the
document, and a spread gets the definition of its fragment as a further first child, unless the
spread is inside that fragment already. `NodeTree.walk` is the plain depth-first walk over such a
tree, and `walker` lets a visitor ride on it, where the context of a node is read off its path.

Main statement: a visitor that has all fragments visited at their spreads receives the same calls on
the document as on the expanded tree, ends with the same memory, and the same errors are recorded
(`visit_eq_walk_expand`).
-/

namespace GraphQLCheck

/-- A finite tree of nodes, whose children need not be those that the nodes have by themselves. -/
inductive NodeTree where
  | mk (node : Node) (children : List NodeTree)

/-- A walker over trees, told of every node with the nodes around it, innermost first. -/
structure TreeWalker (σ : Type) where
  /-- Called before the children of a node. -/
  enter : List Node → Node → σ → σ × WalkFlow
  /-- Called after the children of a node, unless `enter` has had them left out. -/
  leave : List Node → Node → σ → σ

namespace NodeTree

variable {σ : Type}

mutual

/-- The depth-first walk over a tree. -/
def walk (w : TreeWalker σ) (ancestors : List Node) : NodeTree → σ → σ
  | .mk n children, m =>
    match w.enter ancestors n m with
    | (m, .skip) => m
    | (m, .descend) => w.leave ancestors n (walkAll w (n :: ancestors) children m)

/-- The depth-first walk over some trees, one after the other. -/
def walkAll (w : TreeWalker σ) (ancestors : List Node) : List NodeTree → σ → σ
  | [], m => m
  | t :: ts, m => walkAll w ancestors ts (walk w ancestors t m)

end

/-- Trees are walked over one after the other. -/
theorem walkAll_append (w : TreeWalker σ) (ancestors : List Node) (ts us : List NodeTree) (m : σ) :
    walkAll w ancestors (ts ++ us) m = walkAll w ancestors us (walkAll w ancestors ts m) := by
  induction ts generalizing m with
  | nil => rfl
  | cons t ts ih => rw [List.cons_append, walkAll, walkAll, ih]

end NodeTree

/-- The tree of a node below which each spread is expanded, except those of the fragments named in
`above`, inside which the node is. -/
def expand (doc : Document) (above : List String) (n : Node) : NodeTree :=
  let fragment :=
    match n with
    | .fragmentSpread spread =>
      match _h : doc.fragment? spread.name with
      | some d =>
        if _h : spread.name ∈ above then []
        else [expand doc (spread.name :: above) (.fragmentDefinition d)]
      | none => []
    | _ => []
  let children := n.children.attach.filter fun c => !c.1.isFragmentDefinition
  .mk n (fragment ++ children.map fun c => expand doc above c.1)
termination_by (doc.unusedFragments above, sizeOf n)
decreasing_by
  · exact Prod.Lex.left _ _ (Document.unusedFragments_cons_lt ‹_› ‹_›)
  · exact Prod.Lex.right _ (Node.sizeOf_lt_of_mem_children c.2)

/-- The further first child that a node gets if it is a spread. -/
def expandFragment (doc : Document) (above : List String) (n : Node) : List NodeTree :=
  match n with
  | .fragmentSpread spread =>
    match doc.fragment? spread.name with
    | some d =>
      if spread.name ∈ above then []
      else [expand doc (spread.name :: above) (.fragmentDefinition d)]
    | none => []
  | _ => []

/-- The trees of nodes next to each other, of which fragment definitions are left out. -/
def expandAll (doc : Document) (above : List String) (ns : List Node) : List NodeTree :=
  (ns.filter fun n => !n.isFragmentDefinition).map (expand doc above)

/-- A fragment definition is left out. -/
theorem expandAll_cons_of_definition {doc : Document} {above : List String} {n : Node}
    (h : n.isFragmentDefinition = true) (ns : List Node) :
    expandAll doc above (n :: ns) = expandAll doc above ns := by
  rw [expandAll, List.filter_cons_of_neg (by simp [h]), expandAll]

/-- Any other node is expanded. -/
theorem expandAll_cons_of_not {doc : Document} {above : List String} {n : Node}
    (h : n.isFragmentDefinition = false) (ns : List Node) :
    expandAll doc above (n :: ns) = expand doc above n :: expandAll doc above ns := by
  rw [expandAll, List.filter_cons_of_pos (by simp [h]), List.map_cons, expandAll]

/-- A node has the fragment that it spreads and its own children, but no fragment definitions. -/
theorem expand_eq (doc : Document) (above : List String) (n : Node) :
    expand doc above n =
      .mk n (expandFragment doc above n ++ expandAll doc above n.children) := by
  rw [expand.eq_def]
  simp only
  congr 2
  · cases n with
    | fragmentSpread spread =>
      simp only [expandFragment]
      split
      next d hd => simp only [hd]; rfl
      next hd => simp only [hd]
    | _ => rfl
  · rw [expandAll]
    conv => rhs; rw [← List.attach_map_subtype_val n.children, List.filter_map, List.map_map]
    rfl

variable {σ : Type}

namespace Visitor

/-- The visitor with the given handlers that has every fragment visited at its spreads. -/
def ofHandlers (enter : Context → Node → σ → σ × Response)
    (leave : Context → Node → σ → σ × List ValidationError) : Visitor σ where
  enter := enter
  leave := leave
  visitsSpreads := true
  inlineSpread _ _ m := (m, true)

/-- The names of the fragments whose definitions are on a chain of nodes. -/
def fragmentNames (chain : List Node) : List String :=
  chain.filterMap fun
    | .fragmentDefinition d => some d.name
    | _ => none

/-- A node that is no fragment definition adds no name. -/
theorem fragmentNames_cons_of_not {n : Node} (h : n.isFragmentDefinition = false)
    (chain : List Node) : fragmentNames (n :: chain) = fragmentNames chain := by
  cases n with
  | fragmentDefinition d => exact nomatch h
  | _ => rfl

/-- The context of a node that is reached along a path, which depends on the path alone. -/
def contextAt (s : Schema) (doc : Document) (ancestors : List Node) (n : Node) : Context :=
  ⟨s, doc, typesAlong s (n :: ancestors), ancestors, fragmentNames (n :: ancestors)⟩

/-- The walker by which a visitor rides on a plain walk over a tree. Besides the visitor's memory it
keeps the errors that are recorded. -/
def walker (v : Visitor σ) (s : Schema) (doc : Document) :
    TreeWalker (σ × List ValidationError) where
  enter ancestors n m :=
    match v.enter (contextAt s doc ancestors n) n m.1 with
    | (m', .proceed) => ((m', m.2), .descend)
    | (m', .skip) => ((m', m.2), .skip)
    | (m', .report errors) =>
      ((m', m.2 ++ errors.map (·.orLocatedAt (nearestPosition n ancestors))), .skip)
  leave ancestors n m :=
    let r := v.leave (contextAt s doc ancestors n) n m.1
    (r.1, m.2 ++ r.2.map (·.orLocatedAt (nearestPosition n ancestors)))

end Visitor

open Visitor

/-- What a walk has done apart from the types in effect. -/
private def Progress.found (p : Progress σ) : σ × List ValidationError := (p.memory, p.errors)

/-- A visit with the types along the path in effect is a walk over the expanded tree. -/
private theorem visit_found (enter : Context → Node → σ → σ × Response)
    (leave : Context → Node → σ → σ × List ValidationError) (s : Schema) (doc : Document)
    (inlining : List String) (ancestors : List Node) (n : Node) (p : Progress σ)
    (htypes : p.types = typesAlong s ancestors)
    (hnames : fragmentNames (n :: ancestors) = inlining) :
    (visit (ofHandlers enter leave) s doc inlining ancestors true n p).found =
      (expand doc inlining n).walk ((ofHandlers enter leave).walker s doc) ancestors p.found := by
  let v := ofHandlers enter leave
  -- the invariant ties both the types and the fragments being visited to the path;
  -- a dropped node adds nothing, which is why `P` has two parts
  refine visit_induct (v := v)
    (P := fun inlining ancestors isRoot n p p' => p.types = typesAlong s ancestors →
      (v.drops isRoot n = true → p'.found = p.found) ∧
      (v.drops isRoot n = false → fragmentNames (n :: ancestors) = inlining →
        p'.found = (expand doc inlining n).walk (v.walker s doc) ancestors p.found))
    (Q := fun inlining ancestors ns p p' => p.types = typesAlong s ancestors →
      fragmentNames ancestors = inlining →
      p'.found =
        NodeTree.walkAll (v.walker s doc) ancestors (expandAll doc inlining ns) p.found)
    (R := fun inlining ancestors n p p' => p.types = typesAlong s (n :: ancestors) →
      fragmentNames (n :: ancestors) = inlining →
      p'.found = NodeTree.walkAll (v.walker s doc) (n :: ancestors)
        (expandFragment doc inlining n) p.found)
    { dropped := ?dropped, skipped := ?skipped, reported := ?reported, entered := ?entered
      nil := ?nil, cons := ?cons, unasked := ?unasked, refused := ?refused, inlined := ?inlined }
    inlining ancestors true n p htypes |>.2 rfl hnames
  case dropped =>
    intro inlining ancestors isRoot n p hdrop htypes
    exact ⟨fun _ => rfl, fun hdrop' => absurd (hdrop'.symm.trans hdrop) Bool.false_ne_true⟩
  case skipped =>
    intro inlining ancestors isRoot n p m hdrop henter htypes
    refine ⟨fun hdrop' => absurd (hdrop.symm.trans hdrop') Bool.false_ne_true, fun _ hnames => ?_⟩
    rw [expand_eq, NodeTree.walk]
    simp only [walker, contextAt, hnames, typesAlong_cons, ← htypes, Progress.found, henter]
  case reported =>
    intro inlining ancestors isRoot n p m errors hdrop henter htypes
    refine ⟨fun hdrop' => absurd (hdrop.symm.trans hdrop') Bool.false_ne_true, fun _ hnames => ?_⟩
    rw [expand_eq, NodeTree.walk]
    simp only [walker, contextAt, hnames, typesAlong_cons, ← htypes, Progress.found, henter,
      Progress.record]
  case entered =>
    intro inlining ancestors isRoot n p m p₁ p₂ m' errors hdrop henter hR htypes₁ htypes₂ hQ hleave
      htypes
    refine ⟨fun hdrop' => absurd (hdrop.symm.trans hdrop') Bool.false_ne_true, fun _ hnames => ?_⟩
    have hinside : p.types.enter s n = typesAlong s (n :: ancestors) := htypes ▸ rfl
    have henter' : (v.walker s doc).enter ancestors n p.found =
        (Progress.found ⟨p.types.enter s n, m, p.errors⟩, .descend) := by
      simp only [walker, contextAt, hnames, typesAlong_cons, ← htypes, Progress.found, henter]
    rw [expand_eq, NodeTree.walk, henter']
    simp only [NodeTree.walkAll_append, ← hR hinside hnames, ← hQ (htypes₁.trans hinside) hnames]
    simp only [walker, contextAt, hnames, typesAlong_cons, ← htypes, Progress.found, hleave,
      Progress.record]
  case nil =>
    intro inlining ancestors p htypes hnames
    rfl
  case cons =>
    intro inlining ancestors n ns p p₁ p₂ hP htypes₁ hQ htypes hnames
    rw [hQ (htypes₁.trans htypes) hnames]
    -- a fragment definition among the children is dropped by the one and left out by the other
    cases hdef : n.isFragmentDefinition with
    | true =>
      have hdrop : v.drops false n = true := hdef
      rw [(hP htypes).1 hdrop, expandAll_cons_of_definition hdef]
    | false =>
      have hdrop : v.drops false n = false := hdef
      rw [(hP htypes).2 hdrop ((fragmentNames_cons_of_not hdef ancestors).trans hnames),
        expandAll_cons_of_not hdef, NodeTree.walkAll]
  case unasked =>
    intro inlining ancestors n p hn htypes hnames
    cases n with
    | fragmentSpread spread => exact absurd (hn spread rfl).symm Bool.false_ne_true
    | _ => rfl
  case refused =>
    intro inlining ancestors spread p m inline hspreads hask hno htypes hnames
    obtain ⟨rfl, rfl⟩ := Prod.mk.inj hask
    -- the only refusals are a fragment that is being visited and one that is not defined
    have hnone : expandFragment doc inlining (.fragmentSpread spread) = [] := by
      rw [expandFragment]
      split
      next d hd =>
        refine if_pos (Classical.byContradiction fun hmem => ?_)
        rw [hno rfl hmem] at hd
        exact absurd hd.symm (Option.some_ne_none d)
      next => rfl
    rw [hnone]
    rfl
  case inlined =>
    intro inlining ancestors spread d p m p' hspreads hask hmem hd hP htypes hnames
    obtain ⟨rfl, -⟩ := Prod.mk.inj hask
    -- the definition carries the name of the spread, so the path names the same fragments
    have hname : d.name = spread.name := (Document.mem_of_fragment? hd).2
    have hfragment : expandFragment doc inlining (.fragmentSpread spread) =
        [expand doc (spread.name :: inlining) (.fragmentDefinition d)] := by
      simp only [expandFragment, hd, if_neg hmem]
    rw [(hP htypes).2 rfl (by rw [← hnames, ← hname]; rfl), hfragment]
    rfl

/-- Whatever its handlers do, a visitor that has all fragments visited at their spreads ends with
the same memory and the same recorded errors as on a plain walk over the expanded tree of the
document, and receives the same calls, in the same contexts and in the same order. -/
theorem visit_eq_walk_expand (enter : Context → Node → σ → σ × Response)
    (leave : Context → Node → σ → σ × List ValidationError) (s : Schema) (doc : Document) (m : σ) :
    let v := ofHandlers enter leave
    let p := visit v s doc [] [] true (.document doc) ⟨.empty, m, []⟩
    let p' := visit v.watched s doc [] [] true (.document doc) ⟨.empty, (m, []), []⟩
    (expand doc [] (.document doc)).walk (v.watched.walker s doc) [] ((m, []), []) =
      ((p.memory, p'.memory.2), p.errors) := by
  intro v p p'
  have hwalk : p'.found =
      (expand doc [] (.document doc)).walk (v.watched.walker s doc) [] ((m, []), []) :=
    visit_found v.watched.enter v.watched.leave s doc [] [] (.document doc) _ rfl rfl
  -- the calls are written down without changing what the visitor does
  have hwatched : p = p'.unwatched :=
    visit_watched v s doc [] [] true (.document doc) ⟨.empty, (m, []), []⟩
  rw [← hwalk, hwatched]
  rfl

end GraphQLCheck
