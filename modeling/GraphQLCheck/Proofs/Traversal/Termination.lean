import GraphQLCheck.Proofs.Traversal.Steps
import Mathlib.Data.List.Dedup
import Mathlib.Data.List.Perm.Subperm
import Mathlib.Logic.Function.Iterate

/-!
# A rule's walk ends on every document

`visit` is a function, so it says nothing of how a walk proceeds. Here the same walk is taken step
by step: a `WalkState` lists what is still to be done, and keeps the names of the fragments that are
being visited at their spreads in a list of its own, onto which a step puts a name and from which a
later step takes it again. Nothing in `WalkState.step` bounds the number of steps: the fragment that
a spread stands for may enclose that very spread.

Main statements:

* each step keeps the names that are being visited different from one another, and all of them names
  of fragments that are defined (`Visiting.step`);
* from a state in which a node is next to be visited, the walk comes to where the node is done, with
  the same list of names and the progress that `visit` makes (`reaches_visit`);
* a walk ends on every document, and what it has come to in the end is what `visit` gives
  (`walk_ends`).
-/

namespace GraphQLCheck

/-- Something that is still to be done in a walk, at a node with the given nodes around it. -/
inductive WalkTask where
  /-- Visit the node, at which a walk begins or does not. -/
  | visit (ancestors : List Node) (isRoot : Bool) (n : Node)
  /-- Visit the fragment that the node spreads, if it spreads one that is asked for. -/
  | spread (ancestors : List Node) (n : Node)
  /-- Be done with the fragment whose visit has begun last. -/
  | endSpread
  /-- Leave the node, whose children are done. -/
  | leave (ancestors : List Node) (n : Node)

/-- A walk under way. -/
structure WalkState (σ : Type) where
  /-- What is still to be done, next task first. -/
  tasks : List WalkTask
  /-- The names of the fragments that are being visited at their spreads, innermost first. -/
  inlining : List String
  progress : Progress σ

namespace WalkState

variable {σ : Type}

/-- The state in which a walk over a document begins. -/
def start (doc : Document) (p : Progress σ) : WalkState σ :=
  ⟨[.visit [] true (.document doc)], [], p⟩

/-- Visits a node: tells the visitor of it and, if the visitor goes on, leaves the rest of the visit
for later. -/
def stepVisit (v : Visitor σ) (s : Schema) (doc : Document) (ancestors : List Node) (isRoot : Bool)
    (n : Node) (rest : List WalkTask) (inlining : List String) (p : Progress σ) : WalkState σ :=
  let p := { p with types := p.types.enter s n }
  if v.drops isRoot n then ⟨rest, inlining, p.leaveTypes n⟩
  else
    match v.enter ⟨s, doc, p.types, ancestors, inlining⟩ n p.memory with
    | (m, .skip) => ⟨rest, inlining, { p with memory := m }.leaveTypes n⟩
    | (m, .report errors) =>
      ⟨rest, inlining, ({ p with memory := m }.record n ancestors errors).leaveTypes n⟩
    | (m, .proceed) =>
      ⟨.spread ancestors n ::
          (n.children.map (.visit (n :: ancestors) false) ++ .leave ancestors n :: rest),
        inlining, { p with memory := m }⟩

/-- Begins with the fragment that a node spreads, unless the fragment is being visited already. -/
def stepSpread (v : Visitor σ) (s : Schema) (doc : Document) (ancestors : List Node) (n : Node)
    (rest : List WalkTask) (inlining : List String) (p : Progress σ) : WalkState σ :=
  match n with
  | .fragmentSpread spread =>
    if v.visitsSpreads then
      let r := v.inlineSpread ⟨s, doc, p.types, ancestors, inlining⟩ spread p.memory
      let p := { p with memory := r.1 }
      match doc.fragment? spread.name with
      | some d =>
        if r.2 = true ∧ spread.name ∉ inlining then
          ⟨.visit (n :: ancestors) true (.fragmentDefinition d) :: .endSpread :: rest,
            spread.name :: inlining, p⟩
        else ⟨rest, inlining, p⟩
      | none => ⟨rest, inlining, p⟩
    else ⟨rest, inlining, p⟩
  | _ => ⟨rest, inlining, p⟩

/-- Does what is next to be done. Once nothing is, the state stays as it is. -/
def step (v : Visitor σ) (s : Schema) (doc : Document) (w : WalkState σ) : WalkState σ :=
  match w.tasks with
  | [] => w
  | .visit ancestors isRoot n :: rest =>
    stepVisit v s doc ancestors isRoot n rest w.inlining w.progress
  | .spread ancestors n :: rest => stepSpread v s doc ancestors n rest w.inlining w.progress
  | .endSpread :: rest => ⟨rest, w.inlining.tail, w.progress⟩
  | .leave ancestors n :: rest =>
    ⟨rest, w.inlining, leaveNode v s doc w.inlining ancestors n w.progress⟩

section Spread

variable {v : Visitor σ} {s : Schema} {doc : Document} {ancestors : List Node} {n : Node}
  {rest : List WalkTask} {inlining : List String} {p : Progress σ} {m : σ}

/-- No fragment is begun with at a node that is no spread, or if none is visited at its spreads. -/
theorem stepSpread_of_unasked
    (hn : ∀ spread, n = .fragmentSpread spread → v.visitsSpreads = false) :
    stepSpread v s doc ancestors n rest inlining p = ⟨rest, inlining, p⟩ := by
  cases n with
  | fragmentSpread spread => rw [stepSpread, hn spread rfl, if_neg Bool.false_ne_true]
  | _ => rfl

/-- No fragment is begun with if the visitor does not ask for it, if it is being visited already, or
if there is none. -/
theorem stepSpread_of_refused {spread : FragmentSpread} {inline : Bool}
    (hspreads : v.visitsSpreads = true)
    (hask : v.inlineSpread ⟨s, doc, p.types, ancestors, inlining⟩ spread p.memory = (m, inline))
    (hno : inline = true → spread.name ∉ inlining → doc.fragment? spread.name = none) :
    stepSpread v s doc ancestors (.fragmentSpread spread) rest inlining p =
      ⟨rest, inlining, ⟨p.types, m, p.errors⟩⟩ := by
  simp only [stepSpread, if_pos hspreads, hask]
  split
  next d hd => rw [if_neg (not_inlined_of_refused hno hd)]
  next => rfl

/-- Otherwise the last definition of the fragment is next to be visited, and its name is put onto
the list. -/
theorem stepSpread_of_inlined {spread : FragmentSpread} {d : FragmentDefinition}
    (hspreads : v.visitsSpreads = true)
    (hask : v.inlineSpread ⟨s, doc, p.types, ancestors, inlining⟩ spread p.memory = (m, true))
    (hmem : spread.name ∉ inlining) (hd : doc.fragment? spread.name = some d) :
    stepSpread v s doc ancestors (.fragmentSpread spread) rest inlining p =
      ⟨.visit (.fragmentSpread spread :: ancestors) true (.fragmentDefinition d) ::
          .endSpread :: rest, spread.name :: inlining, ⟨p.types, m, p.errors⟩⟩ := by
  simp only [stepSpread, if_pos hspreads, hask, hd]
  exact if_pos ⟨trivial, hmem⟩

end Spread

/-- Whether a walk comes from one state to another in some number of steps. -/
def Reaches (v : Visitor σ) (s : Schema) (doc : Document) (w w' : WalkState σ) : Prop :=
  ∃ k, (step v s doc)^[k] w = w'

section Reaches

variable {v : Visitor σ} {s : Schema} {doc : Document} {w w' w'' : WalkState σ}

namespace Reaches

/-- Taking no step stays in the same state. -/
theorem refl (w : WalkState σ) : Reaches v s doc w w := ⟨0, rfl⟩

/-- One step comes to the next state. -/
theorem single (h : step v s doc w = w') : Reaches v s doc w w' := ⟨1, h⟩

/-- Steps may be taken after other steps. -/
theorem trans (h : Reaches v s doc w w') (h' : Reaches v s doc w' w'') :
    Reaches v s doc w w'' := by
  obtain ⟨k, hk⟩ := h
  obtain ⟨k', hk'⟩ := h'
  refine ⟨k' + k, ?_⟩
  rw [Function.iterate_add_apply, hk, hk']

/-- A step may come before other steps. -/
theorem head (h : step v s doc w = w') (h' : Reaches v s doc w' w'') : Reaches v s doc w w'' :=
  (single h).trans h'

/-- If the visit of a fragment comes to an end, the walk comes to where the spread is done. -/
theorem inlined {ancestors : List Node} {inlining : List String} {p p' : Progress σ} {m : σ}
    {spread : FragmentSpread} {d : FragmentDefinition} {rest : List WalkTask}
    (hspreads : v.visitsSpreads = true)
    (hask : v.inlineSpread ⟨s, doc, p.types, ancestors, inlining⟩ spread p.memory = (m, true))
    (hmem : spread.name ∉ inlining) (hd : doc.fragment? spread.name = some d)
    (hvisit : ∀ rest, Reaches v s doc
      ⟨.visit (.fragmentSpread spread :: ancestors) true (.fragmentDefinition d) :: rest,
        spread.name :: inlining, ⟨p.types, m, p.errors⟩⟩ ⟨rest, spread.name :: inlining, p'⟩) :
    Reaches v s doc ⟨.spread ancestors (.fragmentSpread spread) :: rest, inlining, p⟩
      ⟨rest, inlining, p'⟩ := by
  have hbegin : step v s doc ⟨.spread ancestors (.fragmentSpread spread) :: rest, inlining, p⟩ =
      ⟨.visit (.fragmentSpread spread :: ancestors) true (.fragmentDefinition d) ::
          .endSpread :: rest, spread.name :: inlining, ⟨p.types, m, p.errors⟩⟩ :=
    stepSpread_of_inlined hspreads hask hmem hd
  -- the name that is put onto the list is the one that is taken away in the end
  have hend : step v s doc ⟨.endSpread :: rest, spread.name :: inlining, p'⟩ =
      ⟨rest, inlining, p'⟩ := rfl
  exact (head hbegin (hvisit _)).trans (single hend)

end Reaches

/-- From a state in which a node is next to be visited, a walk comes to where the node is done, with
the progress that `visit` makes, and the same fragments are being visited as before. -/
theorem reaches_visit (v : Visitor σ) (s : Schema) (doc : Document) (ancestors : List Node)
    (isRoot : Bool) (n : Node) (rest : List WalkTask) (inlining : List String) (p : Progress σ) :
    Reaches v s doc ⟨.visit ancestors isRoot n :: rest, inlining, p⟩
      ⟨rest, inlining, visit v s doc inlining ancestors isRoot n p⟩ := by
  -- the induction is along `visit`; whatever is to be done afterwards stays untouched meanwhile
  refine visit_induct
    (P := fun inlining ancestors isRoot n p p' => ∀ rest,
      Reaches v s doc ⟨.visit ancestors isRoot n :: rest, inlining, p⟩ ⟨rest, inlining, p'⟩)
    (Q := fun inlining ancestors ns p p' => ∀ rest,
      Reaches v s doc ⟨ns.map (.visit ancestors false) ++ rest, inlining, p⟩ ⟨rest, inlining, p'⟩)
    (R := fun inlining ancestors n p p' => ∀ rest,
      Reaches v s doc ⟨.spread ancestors n :: rest, inlining, p⟩ ⟨rest, inlining, p'⟩)
    { dropped := ?dropped, skipped := ?skipped, reported := ?reported, entered := ?entered
      nil := ?nil, cons := ?cons, unasked := ?unasked, refused := ?refused, inlined := ?inlined }
    inlining ancestors isRoot n p rest
  case dropped =>
    intro inlining ancestors isRoot n p hdrop rest
    apply Reaches.single
    simp only [step, stepVisit, hdrop, if_true, Progress.leaveTypes, TypeState.leave_enter]
  case skipped =>
    intro inlining ancestors isRoot n p m hdrop henter rest
    apply Reaches.single
    simp only [step, stepVisit, hdrop, Bool.false_eq_true, if_false, henter, Progress.leaveTypes,
      TypeState.leave_enter]
  case reported =>
    intro inlining ancestors isRoot n p m errors hdrop henter rest
    apply Reaches.single
    simp only [step, stepVisit, hdrop, Bool.false_eq_true, if_false, henter, Progress.leaveTypes,
      Progress.record, TypeState.leave_enter]
  case entered =>
    intro inlining ancestors isRoot n p m p₁ p₂ m' errors hdrop henter hR htypes₁ htypes₂ hQ hleave
      rest
    -- what is left of the visit: the fragment that is spread, the children, and leaving the node
    have hstep : step v s doc ⟨.visit ancestors isRoot n :: rest, inlining, p⟩ =
        ⟨.spread ancestors n ::
            (n.children.map (.visit (n :: ancestors) false) ++ .leave ancestors n :: rest),
          inlining, ⟨p.types.enter s n, m, p.errors⟩⟩ := by
      simp only [step, stepVisit, hdrop, Bool.false_eq_true, if_false, henter]
    apply Reaches.head hstep
    refine (hR _).trans ((hQ _).trans (Reaches.single ?_))
    show (⟨rest, inlining, leaveNode v s doc inlining ancestors n p₂⟩ : WalkState σ) = _
    rw [leaveNode_of_types (htypes₂.trans htypes₁) hleave]
  case nil =>
    intro inlining ancestors p rest
    exact Reaches.refl _
  case cons =>
    intro inlining ancestors n ns p p₁ p₂ hP htypes₁ hQ rest
    exact (hP _).trans (hQ rest)
  case unasked =>
    intro inlining ancestors n p hn rest
    exact Reaches.single (stepSpread_of_unasked hn)
  case refused =>
    intro inlining ancestors spread p m inline hspreads hask hno rest
    exact Reaches.single (stepSpread_of_refused hspreads hask hno)
  case inlined =>
    intro inlining ancestors spread d p m p' hspreads hask hmem hd hP rest
    exact Reaches.inlined hspreads hask hmem hd hP

/-- From a state in which the fragment of a node is next, a walk comes to where that fragment is
done, and the same fragments are being visited as before. -/
theorem reaches_spread (v : Visitor σ) (s : Schema) (doc : Document) (ancestors : List Node)
    (n : Node) (rest : List WalkTask) (inlining : List String) (p : Progress σ) :
    Reaches v s doc ⟨.spread ancestors n :: rest, inlining, p⟩
      ⟨rest, inlining, visitFragment v s doc inlining ancestors n p⟩ := by
  by_cases hn : ∀ spread, n = .fragmentSpread spread → v.visitsSpreads = false
  · rw [visitFragment_of_unasked hn]
    exact Reaches.single (stepSpread_of_unasked hn)
  · simp only [not_forall, Bool.not_eq_false] at hn
    obtain ⟨spread, rfl, hspreads⟩ := hn
    generalize hask : v.inlineSpread ⟨s, doc, p.types, ancestors, inlining⟩ spread p.memory = r
    obtain ⟨m, inline⟩ := r
    by_cases hno : inline = true → spread.name ∉ inlining → doc.fragment? spread.name = none
    · rw [visitFragment_of_refused hspreads hask hno]
      exact Reaches.single (stepSpread_of_refused hspreads hask hno)
    · simp only [not_forall] at hno
      obtain ⟨rfl, hmem, hd⟩ := hno
      obtain ⟨d, hd⟩ := Option.ne_none_iff_exists'.1 hd
      rw [visitFragment_of_inlined hspreads hask hmem hd]
      exact Reaches.inlined hspreads hask hmem hd fun rest => reaches_visit ..

end Reaches

end WalkState

/-- Whether names may be those of the fragments that are being visited at their spreads: no name
comes twice, and each is the name of a fragment that the document defines. -/
structure Visiting (doc : Document) (names : List String) : Prop where
  nodup : names.Nodup
  defined : ∀ name ∈ names, ∃ d, doc.fragment? name = some d

namespace Visiting

variable {doc : Document} {names : List String}

/-- At first no fragment is being visited. -/
theorem nil (doc : Document) : Visiting doc [] :=
  ⟨List.nodup_nil, fun _ hname => absurd hname List.not_mem_nil⟩

/-- A fragment that is defined and not being visited may be visited inside the others. -/
theorem cons (h : Visiting doc names) {name : String} {d : FragmentDefinition}
    (hd : doc.fragment? name = some d) (hname : name ∉ names) : Visiting doc (name :: names) := by
  refine ⟨List.nodup_cons.2 ⟨hname, h.nodup⟩, ?_⟩
  exact List.forall_mem_cons.2 ⟨⟨d, hd⟩, h.defined⟩

/-- The visit of the innermost fragment may end. -/
theorem tail (h : Visiting doc names) : Visiting doc names.tail :=
  ⟨h.nodup.tail, fun name hname => h.defined name (List.mem_of_mem_tail hname)⟩

/-- There are no more names than fragments with different names. -/
theorem length_le (h : Visiting doc names) :
    names.length ≤ (doc.fragments.map FragmentDefinition.name).dedup.length := by
  refine (List.subperm_of_subset h.nodup fun name hname => ?_).length_le
  obtain ⟨d, hd⟩ := h.defined name hname
  obtain ⟨hmem, hname⟩ := Document.mem_of_fragment? hd
  rw [List.mem_dedup, ← hname]
  exact List.mem_map_of_mem hmem

variable {σ : Type} (v : Visitor σ) (s : Schema)

/-- Being told of a node changes nothing about the fragments being visited. -/
theorem inlining_stepVisit (doc : Document) (ancestors : List Node) (isRoot : Bool) (n : Node)
    (rest : List WalkTask) (inlining : List String) (p : Progress σ) :
    (WalkState.stepVisit v s doc ancestors isRoot n rest inlining p).inlining = inlining := by
  simp only [WalkState.stepVisit]
  split
  next => rfl
  next =>
    generalize henter : v.enter _ n p.memory = r
    obtain ⟨m, response⟩ := r
    cases response <;> rfl

/-- A fragment whose visit begins is defined, and not being visited before. -/
theorem stepSpread (h : Visiting doc names) (ancestors : List Node) (n : Node)
    (rest : List WalkTask) (p : Progress σ) :
    Visiting doc (WalkState.stepSpread v s doc ancestors n rest names p).inlining := by
  cases n with
  | fragmentSpread spread =>
    simp only [WalkState.stepSpread]
    split
    next =>
      split
      next d hd =>
        split
        next hinline => exact h.cons hd hinline.2
        next => exact h
      next => exact h
    next => exact h
  | _ => exact h

/-- Each step keeps the names different and defined. -/
theorem step {w : WalkState σ} (h : Visiting doc w.inlining) :
    Visiting doc (w.step v s doc).inlining := by
  obtain ⟨tasks, inlining, p⟩ := w
  cases tasks with
  | nil => exact h
  | cons task rest =>
    cases task with
    | visit ancestors isRoot n =>
      show Visiting doc (WalkState.stepVisit v s doc ancestors isRoot n rest inlining p).inlining
      rw [inlining_stepVisit]
      exact h
    | spread ancestors n => exact h.stepSpread v s ancestors n rest p
    | endSpread => exact h.tail
    | leave ancestors n => exact h

/-- Any number of steps keeps the names different and defined. -/
theorem iterate {w : WalkState σ} (h : Visiting doc w.inlining) (k : Nat) :
    Visiting doc ((WalkState.step v s doc)^[k] w).inlining := by
  induction k with
  | zero => exact h
  | succ k ih =>
    rw [Function.iterate_succ_apply']
    exact ih.step v s

end Visiting

/-- Whatever the document and whatever the visitor asks for, a walk ends, with the progress that
`visit` makes. All the way no fragment is being visited inside itself, only fragments that the
document defines are visited, and so there are never more of them under way than there are names of
fragments. Wherever a node or the fragment that it spreads is next, the walk comes to where that is
done, and then the fragments being visited are those that were before. -/
theorem walk_ends {σ : Type} (v : Visitor σ) (s : Schema) (doc : Document) (p : Progress σ) :
    let step := WalkState.step v s doc
    (∃ k, step^[k] (.start doc p) = ⟨[], [], visit v s doc [] [] true (.document doc) p⟩) ∧
      ∀ k, let w := step^[k] (.start doc p)
        w.inlining.Nodup ∧ (∀ name ∈ w.inlining, ∃ d, doc.fragment? name = some d) ∧
        w.inlining.length ≤ (doc.fragments.map FragmentDefinition.name).dedup.length ∧
        (∀ ancestors isRoot n rest, w.tasks = .visit ancestors isRoot n :: rest →
          ∃ j, step^[j] w =
            ⟨rest, w.inlining, visit v s doc w.inlining ancestors isRoot n w.progress⟩) ∧
        ∀ ancestors n rest, w.tasks = .spread ancestors n :: rest →
          ∃ j, step^[j] w =
            ⟨rest, w.inlining, visitFragment v s doc w.inlining ancestors n w.progress⟩ := by
  intro step
  refine ⟨WalkState.reaches_visit v s doc [] true (.document doc) [] [] p, fun k => ?_⟩
  intro w
  -- every step keeps that no fragment is being visited twice
  have hvisiting : Visiting doc w.inlining := (Visiting.nil doc).iterate v s k
  have hw {tasks : List WalkTask} (htasks : w.tasks = tasks) :
      w = ⟨tasks, w.inlining, w.progress⟩ := by
    rw [← htasks]
  refine ⟨hvisiting.nodup, hvisiting.defined, hvisiting.length_le, ?_, ?_⟩
  · intro ancestors isRoot n rest htasks
    rw [hw htasks]
    exact WalkState.reaches_visit v s doc ancestors isRoot n rest w.inlining w.progress
  · intro ancestors n rest htasks
    rw [hw htasks]
    exact WalkState.reaches_spread v s doc ancestors n rest w.inlining w.progress

end GraphQLCheck
