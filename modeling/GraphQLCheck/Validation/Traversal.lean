import GraphQLCheck.Validation.Rule

/-!
# The walk of a rule

`visit` walks over a node for a visitor. It keeps the types in effect in step with the walk, and
visits a fragment at its spreads if the visitor asks for it, but never within itself. The fragments
being visited at their spreads have distinct names, all of them names of fragments that the
document defines, so the walk ends.
-/

namespace GraphQLCheck

/-- How far a rule's walk has come. -/
structure Progress (σ : Type) where
  types : TypeState
  memory : σ
  errors : List ValidationError

namespace Document

/-- How many fragment definitions have a name that is not in a list. -/
def unusedFragments (doc : Document) (inlining : List String) : Nat :=
  doc.fragments.countP fun d => d.name ∉ inlining

/-- The definition that a name stands for is one of the definitions of the document, and it has
that name. -/
theorem mem_of_fragment? {doc : Document} {name : String} {d : FragmentDefinition}
    (h : doc.fragment? name = some d) : d ∈ doc.fragments ∧ d.name = name := by
  have hmem := List.mem_of_find?_eq_some h
  have hname := List.find?_some h
  simp only [decide_eq_true_eq] at hname
  exact ⟨List.mem_reverse.1 hmem, hname⟩

/-- Fewer fragments are unused once a further one is in use. -/
theorem unusedFragments_cons_lt {doc : Document} {name : String} {d : FragmentDefinition}
    {inlining : List String} (h : doc.fragment? name = some d) (hname : name ∉ inlining) :
    doc.unusedFragments (name :: inlining) < doc.unusedFragments inlining := by
  obtain ⟨hmem, rfl⟩ := mem_of_fragment? h
  obtain ⟨before, after, hsplit⟩ := List.append_of_mem hmem
  have hle (ds : List FragmentDefinition) :
      ds.countP (fun e => decide (e.name ∉ d.name :: inlining)) ≤
        ds.countP (fun e => decide (e.name ∉ inlining)) := by
    refine List.countP_mono_left fun e _ he => ?_
    simp only [List.mem_cons, not_or, decide_eq_true_eq] at he ⊢
    exact he.2
  have hbefore := hle before
  have hafter := hle after
  simp only [unusedFragments, hsplit, List.countP_append, List.countP_cons]
  simp only [List.mem_cons, true_or, not_true_eq_false, decide_false, hname, not_false_eq_true,
    decide_true, if_true, Bool.false_eq_true, if_false] at *
  omega

end Document

section

variable {σ : Type}

/-- The place of a node, or else of the innermost node around it that has one. -/
def nearestPosition (n : Node) (ancestors : List Node) : Option Position :=
  (n :: ancestors).findSome? Node.position?

/-- Records the errors that a visitor returns at a node. -/
def Progress.record (p : Progress σ) (n : Node) (ancestors : List Node)
    (errors : List ValidationError) : Progress σ :=
  { p with errors := p.errors ++ errors.map (·.orLocatedAt (nearestPosition n ancestors)) }

/-- Leaves a node as far as the types in effect are concerned. -/
def Progress.leaveTypes (p : Progress σ) (n : Node) : Progress σ :=
  { p with types := p.types.leave n }

/-- Whether a node is a fragment definition. -/
def Node.isFragmentDefinition : Node → Bool
  | .fragmentDefinition _ => true
  | _ => false

/-- Walks over a node for a visitor. The flag tells the node at which a walk begins, which is the
document or a fragment that is visited at a spread. -/
def visit (v : Visitor σ) (s : Schema) (doc : Document) (inlining : List String)
    (ancestors : List Node) (isRoot : Bool) (n : Node) (p : Progress σ) : Progress σ :=
  let p := { p with types := p.types.enter s n }
  if v.visitsSpreads && !isRoot && n.isFragmentDefinition then p.leaveTypes n
  else
    match v.enter ⟨s, doc, p.types, ancestors, inlining⟩ n p.memory with
    | (m, .skip) => { p with memory := m }.leaveTypes n
    | (m, .report errors) => ({ p with memory := m }.record n ancestors errors).leaveTypes n
    | (m, .proceed) =>
      let p := { p with memory := m }
      let p :=
        match n with
        | .fragmentSpread spread =>
          if v.visitsSpreads then
            let (m, inline) :=
              v.inlineSpread ⟨s, doc, p.types, ancestors, inlining⟩ spread p.memory
            let p := { p with memory := m }
            match _h : doc.fragment? spread.name with
            | some d =>
              if _h : inline = true ∧ spread.name ∉ inlining then
                visit v s doc (spread.name :: inlining) (n :: ancestors) true
                  (.fragmentDefinition d) p
              else p
            | none => p
          else p
        | _ => p
      let p := n.children.attach.foldl
        (fun p c => visit v s doc inlining (n :: ancestors) false c.1 p) p
      let (m, errors) := v.leave ⟨s, doc, p.types, ancestors, inlining⟩ n p.memory
      ({ p with memory := m }.record n ancestors errors).leaveTypes n
termination_by (doc.unusedFragments inlining, sizeOf n)
decreasing_by
  · exact Prod.Lex.left _ _ (Document.unusedFragments_cons_lt ‹_› (‹_ ∧ _›).2)
  · exact Prod.Lex.right _ (Node.sizeOf_lt_of_mem_children c.2)

end

end GraphQLCheck
