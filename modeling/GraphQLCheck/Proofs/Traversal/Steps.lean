import GraphQLCheck.Validation.Traversal

/-!
# The steps of a rule's walk

What `visit` does at a node, step by step. The equations `visit_of_drops`, `visit_of_skip`,
`visit_of_report` and `visit_of_proceed` say what becomes of the progress for each response of the
visitor, and `visit_eq` says so at once. `visitFragment` is what happens at a spread, `visit_types`
says that a walk restores the types in effect, and `visit_induct` is the induction that follows the
walk.
-/

namespace GraphQLCheck

variable {σ : Type}

/-- Whether a walk passes a node by: a fragment definition at which the walk has not begun, if
fragments are visited where they are spread. -/
def Visitor.drops (v : Visitor σ) (isRoot : Bool) (n : Node) : Bool :=
  v.visitsSpreads && !isRoot && n.isFragmentDefinition

/-- Walks over some nodes with the same ancestors, one after the other. -/
def visitAll (v : Visitor σ) (s : Schema) (doc : Document) (inlining : List String)
    (ancestors : List Node) (ns : List Node) (p : Progress σ) : Progress σ :=
  ns.foldl (fun p n => visit v s doc inlining ancestors false n p) p

/-- A walk over no nodes changes nothing. -/
theorem visitAll_nil (v : Visitor σ) (s : Schema) (doc : Document) (inlining : List String)
    (ancestors : List Node) (p : Progress σ) : visitAll v s doc inlining ancestors [] p = p :=
  rfl

/-- A walk over a node and then some others. -/
theorem visitAll_cons (v : Visitor σ) (s : Schema) (doc : Document) (inlining : List String)
    (ancestors : List Node) (n : Node) (ns : List Node) (p : Progress σ) :
    visitAll v s doc inlining ancestors (n :: ns) p =
      visitAll v s doc inlining ancestors ns (visit v s doc inlining ancestors false n p) :=
  rfl

/-- A walk over some nodes and then some others. -/
theorem visitAll_append (v : Visitor σ) (s : Schema) (doc : Document) (inlining : List String)
    (ancestors ns ms : List Node) (p : Progress σ) :
    visitAll v s doc inlining ancestors (ns ++ ms) p =
      visitAll v s doc inlining ancestors ms (visitAll v s doc inlining ancestors ns p) := by
  rw [visitAll, List.foldl_append]
  rfl

/-- Visits the fragment that a node spreads, if the node is a spread and the visitor asks for it. -/
def visitFragment (v : Visitor σ) (s : Schema) (doc : Document) (inlining : List String)
    (ancestors : List Node) (n : Node) (p : Progress σ) : Progress σ :=
  match n with
  | .fragmentSpread spread =>
    if v.visitsSpreads then
      let r := v.inlineSpread ⟨s, doc, p.types, ancestors, inlining⟩ spread p.memory
      match doc.fragment? spread.name with
      | some d =>
        if r.2 = true ∧ spread.name ∉ inlining then
          visit v s doc (spread.name :: inlining) (n :: ancestors) true (.fragmentDefinition d)
            { p with memory := r.1 }
        else { p with memory := r.1 }
      | none => { p with memory := r.1 }
    else p
  | _ => p

/-- Tells the visitor that the children of a node are done, and leaves the node. -/
def leaveNode (v : Visitor σ) (s : Schema) (doc : Document) (inlining : List String)
    (ancestors : List Node) (n : Node) (p : Progress σ) : Progress σ :=
  let r := v.leave ⟨s, doc, p.types, ancestors, inlining⟩ n p.memory
  ({ p with memory := r.1 }.record n ancestors r.2).leaveTypes n

section Equations

variable {v : Visitor σ} {s : Schema} {doc : Document} {inlining : List String}
  {ancestors : List Node} {isRoot : Bool} {n : Node} {p : Progress σ} {m : σ}

/-- A node that is passed by changes nothing. -/
theorem visit_of_drops (hdrop : v.drops isRoot n = true) :
    visit v s doc inlining ancestors isRoot n p = p := by
  rw [Visitor.drops] at hdrop
  rw [visit, if_pos hdrop]
  simp only [Progress.leaveTypes, TypeState.leave_enter]

/-- After a skip only the memory is new. -/
theorem visit_of_skip (hdrop : v.drops isRoot n = false)
    (henter : v.enter ⟨s, doc, p.types.enter s n, ancestors, inlining⟩ n p.memory = (m, .skip)) :
    visit v s doc inlining ancestors isRoot n p = { p with memory := m } := by
  rw [Visitor.drops] at hdrop
  rw [visit, if_neg (by simp [hdrop])]
  simp only [henter, Progress.leaveTypes, TypeState.leave_enter]

/-- Errors that are reported on entering a node are recorded there. -/
theorem visit_of_report {errors : List ValidationError} (hdrop : v.drops isRoot n = false)
    (henter : v.enter ⟨s, doc, p.types.enter s n, ancestors, inlining⟩ n p.memory =
      (m, .report errors)) :
    visit v s doc inlining ancestors isRoot n p =
      { p with memory := m }.record n ancestors errors := by
  rw [Visitor.drops] at hdrop
  rw [visit, if_neg (by simp [hdrop])]
  simp only [henter, Progress.leaveTypes, Progress.record, TypeState.leave_enter]

/-- If the visitor goes on, the fragment that is spread comes first, then the children. -/
theorem visit_of_proceed (hdrop : v.drops isRoot n = false)
    (henter : v.enter ⟨s, doc, p.types.enter s n, ancestors, inlining⟩ n p.memory =
      (m, .proceed)) :
    visit v s doc inlining ancestors isRoot n p =
      leaveNode v s doc inlining ancestors n
        (visitAll v s doc inlining (n :: ancestors) n.children
          (visitFragment v s doc inlining ancestors n ⟨p.types.enter s n, m, p.errors⟩)) := by
  -- `visit` carries proofs of membership along, `visitAll` does not
  have hfold (p : Progress σ) :
      n.children.attach.foldl
          (fun p c => visit v s doc inlining (n :: ancestors) false c.1 p) p =
        visitAll v s doc inlining (n :: ancestors) n.children p :=
    List.foldl_attach (f := fun p c => visit v s doc inlining (n :: ancestors) false c p)
  rw [Visitor.drops] at hdrop
  rw [visit, if_neg (by simp [hdrop])]
  simp only [henter, hfold, leaveNode]
  cases n with
  | fragmentSpread spread =>
    simp only [visitFragment]
    by_cases hspreads : v.visitsSpreads = true
    · simp only [if_pos hspreads]
      split
      · next hfragment => simp only [hfragment]; rfl
      · next hfragment => simp only [hfragment]
    · simp only [if_neg hspreads]
  | _ => rfl

/-- The equations together. -/
theorem visit_eq (v : Visitor σ) (s : Schema) (doc : Document) (inlining : List String)
    (ancestors : List Node) (isRoot : Bool) (n : Node) (p : Progress σ) :
    visit v s doc inlining ancestors isRoot n p =
      if v.drops isRoot n then p
      else
        match v.enter ⟨s, doc, p.types.enter s n, ancestors, inlining⟩ n p.memory with
        | (m, .skip) => ⟨p.types, m, p.errors⟩
        | (m, .report errors) => Progress.record ⟨p.types, m, p.errors⟩ n ancestors errors
        | (m, .proceed) =>
          leaveNode v s doc inlining ancestors n
            (visitAll v s doc inlining (n :: ancestors) n.children
              (visitFragment v s doc inlining ancestors n ⟨p.types.enter s n, m, p.errors⟩)) := by
  cases hdrop : v.drops isRoot n with
  | true => exact visit_of_drops hdrop
  | false =>
    generalize henter : v.enter _ n p.memory = r
    obtain ⟨m, response⟩ := r
    cases response with
    | skip => exact visit_of_skip hdrop henter
    | report errors => exact visit_of_report hdrop henter
    | proceed => exact visit_of_proceed hdrop henter

/-- No fragment is visited at a node that is no spread, or if none is visited at its spreads. -/
theorem visitFragment_of_unasked
    (hn : ∀ spread, n = .fragmentSpread spread → v.visitsSpreads = false) :
    visitFragment v s doc inlining ancestors n p = p := by
  cases n with
  | fragmentSpread spread => rw [visitFragment, hn spread rfl, if_neg Bool.false_ne_true]
  | _ => rfl

/-- A fragment that is there and yet not visited is not asked for, or is being visited already. -/
theorem not_inlined_of_refused {name : String} {d : FragmentDefinition} {inline : Bool}
    (hno : inline = true → name ∉ inlining → doc.fragment? name = none)
    (hd : doc.fragment? name = some d) : ¬(inline = true ∧ name ∉ inlining) := by
  rintro ⟨hinline, hmem⟩
  rw [hno hinline hmem] at hd
  exact absurd hd.symm (Option.some_ne_none d)

/-- No fragment is visited if the visitor does not ask for it, if it is being visited already, or if
there is none. -/
theorem visitFragment_of_refused {spread : FragmentSpread} {inline : Bool}
    (hspreads : v.visitsSpreads = true)
    (hask : v.inlineSpread ⟨s, doc, p.types, ancestors, inlining⟩ spread p.memory = (m, inline))
    (hno : inline = true → spread.name ∉ inlining → doc.fragment? spread.name = none) :
    visitFragment v s doc inlining ancestors (.fragmentSpread spread) p =
      ⟨p.types, m, p.errors⟩ := by
  simp only [visitFragment, if_pos hspreads, hask]
  split
  next d hd => rw [if_neg (not_inlined_of_refused hno hd)]
  next => rfl

/-- Otherwise the last definition of the fragment is visited. -/
theorem visitFragment_of_inlined {spread : FragmentSpread} {d : FragmentDefinition}
    (hspreads : v.visitsSpreads = true)
    (hask : v.inlineSpread ⟨s, doc, p.types, ancestors, inlining⟩ spread p.memory = (m, true))
    (hmem : spread.name ∉ inlining) (hd : doc.fragment? spread.name = some d) :
    visitFragment v s doc inlining ancestors (.fragmentSpread spread) p =
      visit v s doc (spread.name :: inlining) (.fragmentSpread spread :: ancestors) true
        (.fragmentDefinition d) ⟨p.types, m, p.errors⟩ := by
  simp only [visitFragment, if_pos hspreads, hask, hd]
  exact if_pos ⟨trivial, hmem⟩

/-- Leaving a node inside which the types are those that entering it has put in effect. -/
theorem leaveNode_of_types {t : TypeState} {errors : List ValidationError}
    (htypes : p.types = t.enter s n)
    (hleave : v.leave ⟨s, doc, t.enter s n, ancestors, inlining⟩ n p.memory = (m, errors)) :
    leaveNode v s doc inlining ancestors n p =
      Progress.record ⟨t, m, p.errors⟩ n ancestors errors := by
  simp only [leaveNode, htypes, hleave, Progress.leaveTypes, Progress.record,
    TypeState.leave_enter]

end Equations

section Induction

variable {v : Visitor σ} {s : Schema} {doc : Document}
  {P : List String → List Node → Bool → Node → Progress σ → Progress σ → Prop}
  {Q : List String → List Node → List Node → Progress σ → Progress σ → Prop}
  {R : List String → List Node → Node → Progress σ → Progress σ → Prop}

/-- A relation that each node of a list keeps is kept by the walk over the list. -/
private theorem visitAll_of_forall {inlining : List String} {ancestors ns : List Node}
    (nil : ∀ p, Q inlining ancestors [] p p)
    (cons : ∀ n ns p p₁ p₂, P inlining ancestors false n p p₁ → p₁.types = p.types →
      Q inlining ancestors ns p₁ p₂ → Q inlining ancestors (n :: ns) p p₂)
    (h : ∀ n ∈ ns, ∀ p, (visit v s doc inlining ancestors false n p).types = p.types ∧
      P inlining ancestors false n p (visit v s doc inlining ancestors false n p))
    (p : Progress σ) :
    (visitAll v s doc inlining ancestors ns p).types = p.types ∧
      Q inlining ancestors ns p (visitAll v s doc inlining ancestors ns p) := by
  -- the types are part of the induction: each node begins where the one before it has left them
  induction ns generalizing p with
  | nil => exact ⟨rfl, nil p⟩
  | cons n ns ih =>
    obtain ⟨htypes, hP⟩ := h n List.mem_cons_self p
    obtain ⟨htypes', hQ⟩ := ih (fun m hm => h m (List.mem_cons_of_mem n hm))
      (visit v s doc inlining ancestors false n p)
    exact ⟨htypes'.trans htypes, cons n ns p _ _ hP htypes hQ⟩

/-- The cases of `visit_induct`. `P` relates the progress before and after a node, `Q` that before
and after some nodes with the same ancestors, and `R` that before and after the fragment that is
visited at a node. -/
structure VisitCases (v : Visitor σ) (s : Schema) (doc : Document)
    (P : List String → List Node → Bool → Node → Progress σ → Progress σ → Prop)
    (Q : List String → List Node → List Node → Progress σ → Progress σ → Prop)
    (R : List String → List Node → Node → Progress σ → Progress σ → Prop) : Prop where
  dropped : ∀ inlining ancestors isRoot n p, v.drops isRoot n = true →
    P inlining ancestors isRoot n p p
  skipped : ∀ inlining ancestors isRoot n p m, v.drops isRoot n = false →
    v.enter ⟨s, doc, p.types.enter s n, ancestors, inlining⟩ n p.memory = (m, .skip) →
    P inlining ancestors isRoot n p ⟨p.types, m, p.errors⟩
  reported : ∀ inlining ancestors isRoot n p m errors, v.drops isRoot n = false →
    v.enter ⟨s, doc, p.types.enter s n, ancestors, inlining⟩ n p.memory = (m, .report errors) →
    P inlining ancestors isRoot n p (Progress.record ⟨p.types, m, p.errors⟩ n ancestors errors)
  entered : ∀ inlining ancestors isRoot n p m p₁ p₂ m' errors, v.drops isRoot n = false →
    v.enter ⟨s, doc, p.types.enter s n, ancestors, inlining⟩ n p.memory = (m, .proceed) →
    R inlining ancestors n ⟨p.types.enter s n, m, p.errors⟩ p₁ →
    p₁.types = p.types.enter s n → p₂.types = p₁.types →
    Q inlining (n :: ancestors) n.children p₁ p₂ →
    v.leave ⟨s, doc, p.types.enter s n, ancestors, inlining⟩ n p₂.memory = (m', errors) →
    P inlining ancestors isRoot n p (Progress.record ⟨p.types, m', p₂.errors⟩ n ancestors errors)
  nil : ∀ inlining ancestors p, Q inlining ancestors [] p p
  cons : ∀ inlining ancestors n ns p p₁ p₂, P inlining ancestors false n p p₁ →
    p₁.types = p.types → Q inlining ancestors ns p₁ p₂ → Q inlining ancestors (n :: ns) p p₂
  unasked : ∀ inlining ancestors n p,
    (∀ spread, n = .fragmentSpread spread → v.visitsSpreads = false) →
    R inlining ancestors n p p
  refused : ∀ inlining ancestors spread p m inline, v.visitsSpreads = true →
    v.inlineSpread ⟨s, doc, p.types, ancestors, inlining⟩ spread p.memory = (m, inline) →
    (inline = true → spread.name ∉ inlining → doc.fragment? spread.name = none) →
    R inlining ancestors (.fragmentSpread spread) p ⟨p.types, m, p.errors⟩
  inlined : ∀ inlining ancestors spread d p m p', v.visitsSpreads = true →
    v.inlineSpread ⟨s, doc, p.types, ancestors, inlining⟩ spread p.memory = (m, true) →
    spread.name ∉ inlining → doc.fragment? spread.name = some d →
    P (spread.name :: inlining) (.fragmentSpread spread :: ancestors) true
      (.fragmentDefinition d) ⟨p.types, m, p.errors⟩ p' →
    R inlining ancestors (.fragmentSpread spread) p p'

/-- A relation that the visit of an inlined fragment keeps is kept by what happens at a node. -/
private theorem visitFragment_of_forall (cases : VisitCases v s doc P Q R)
    {inlining : List String} {ancestors : List Node} {n : Node}
    (h : ∀ spread d, n = .fragmentSpread spread → doc.fragment? spread.name = some d →
      spread.name ∉ inlining → ∀ p,
      let p' := visit v s doc (spread.name :: inlining) (n :: ancestors) true
        (.fragmentDefinition d) p
      p'.types = p.types ∧ P (spread.name :: inlining) (n :: ancestors) true
        (.fragmentDefinition d) p p') (p : Progress σ) :
    (visitFragment v s doc inlining ancestors n p).types = p.types ∧
      R inlining ancestors n p (visitFragment v s doc inlining ancestors n p) := by
  cases n with
  | fragmentSpread spread =>
    simp only [visitFragment]
    -- the fragment is visited, refused, not defined, or not asked for at all
    split
    next hspreads =>
      generalize hask : v.inlineSpread _ spread p.memory = r
      obtain ⟨m, inline⟩ := r
      split
      next d hd =>
        split
        next hinline =>
          obtain ⟨rfl, hmem⟩ := hinline
          obtain ⟨htypes, hP⟩ := h spread d rfl hd hmem ⟨p.types, m, p.errors⟩
          exact ⟨htypes, cases.inlined _ _ _ _ _ _ _ hspreads hask hmem hd hP⟩
        next hinline =>
          refine ⟨rfl, cases.refused _ _ _ _ _ _ hspreads hask fun hi hmem => ?_⟩
          exact absurd ⟨hi, hmem⟩ hinline
      next hd => exact ⟨rfl, cases.refused _ _ _ _ _ _ hspreads hask fun _ _ => hd⟩
    next hspreads =>
      exact ⟨rfl, cases.unasked _ _ _ _ fun _ _ => Bool.not_eq_true _ ▸ hspreads⟩
  | _ => exact ⟨rfl, cases.unasked _ _ _ _ fun _ h => Node.noConfusion h⟩

/-- The induction along a walk, together with the fact that the types in effect are restored. -/
private theorem visit_types_and_induct (cases : VisitCases v s doc P Q R) (inlining : List String)
    (ancestors : List Node) (isRoot : Bool) (n : Node) (p : Progress σ) :
    (visit v s doc inlining ancestors isRoot n p).types = p.types ∧
      P inlining ancestors isRoot n p (visit v s doc inlining ancestors isRoot n p) := by
  -- the exits of `visit` in turn; only the last one goes deeper
  cases hdrop : v.drops isRoot n with
  | true => rw [visit_of_drops hdrop]; exact ⟨rfl, cases.dropped _ _ _ _ _ hdrop⟩
  | false =>
    generalize henter : v.enter ⟨s, doc, p.types.enter s n, ancestors, inlining⟩ n p.memory = r
    obtain ⟨m, response⟩ := r
    cases response with
    | skip =>
      rw [visit_of_skip hdrop henter]
      exact ⟨rfl, cases.skipped _ _ _ _ _ _ hdrop henter⟩
    | report errors =>
      rw [visit_of_report hdrop henter]
      exact ⟨rfl, cases.reported _ _ _ _ _ _ _ hdrop henter⟩
    | proceed =>
      rw [visit_of_proceed hdrop henter]
      -- the fragment comes first, so the children begin where it has ended
      obtain ⟨htypes₁, hR⟩ := visitFragment_of_forall cases (n := n)
        (fun spread d hn hd hmem p => visit_types_and_induct cases (spread.name :: inlining)
          (n :: ancestors) true (.fragmentDefinition d) p) ⟨p.types.enter s n, m, p.errors⟩
      generalize visitFragment v s doc inlining ancestors n _ = p₁ at htypes₁ hR ⊢
      obtain ⟨htypes₂, hQ⟩ := visitAll_of_forall (cases.nil inlining (n :: ancestors))
        (cases.cons _ _) (fun c hc p => visit_types_and_induct cases inlining (n :: ancestors)
          false c p) p₁
      generalize visitAll v s doc inlining (n :: ancestors) n.children p₁ = p₂ at htypes₂ hQ ⊢
      rw [leaveNode_of_types (htypes₂.trans htypes₁) rfl]
      exact ⟨rfl, cases.entered _ _ _ _ _ _ _ _ _ _ hdrop henter hR htypes₁ htypes₂ hQ rfl⟩
termination_by (doc.unusedFragments inlining, sizeOf n)
decreasing_by
  · exact Prod.Lex.left _ _ (Document.unusedFragments_cons_lt hd hmem)
  · exact Prod.Lex.right _ (Node.sizeOf_lt_of_mem_children hc)

/-- The induction along a walk. -/
theorem visit_induct (cases : VisitCases v s doc P Q R) (inlining : List String)
    (ancestors : List Node) (isRoot : Bool) (n : Node) (p : Progress σ) :
    P inlining ancestors isRoot n p (visit v s doc inlining ancestors isRoot n p) :=
  (visit_types_and_induct cases inlining ancestors isRoot n p).2

/-- The induction along a walk over some nodes with the same ancestors. -/
theorem visitAll_induct (cases : VisitCases v s doc P Q R) (inlining : List String)
    (ancestors ns : List Node) (p : Progress σ) :
    Q inlining ancestors ns p (visitAll v s doc inlining ancestors ns p) :=
  (visitAll_of_forall (cases.nil _ _) (cases.cons _ _)
    (fun n _ p => visit_types_and_induct cases inlining ancestors false n p) p).2

end Induction

/-- After a walk over a node the same types are in effect as before it, entry by entry. -/
@[simp]
theorem visit_types (v : Visitor σ) (s : Schema) (doc : Document) (inlining : List String)
    (ancestors : List Node) (isRoot : Bool) (n : Node) (p : Progress σ) :
    (visit v s doc inlining ancestors isRoot n p).types = p.types := by
  refine (visit_types_and_induct (P := fun _ _ _ _ _ _ => True) (Q := fun _ _ _ _ _ => True)
    (R := fun _ _ _ _ _ => True) ?_ inlining ancestors isRoot n p).1
  constructor <;> intros <;> trivial

/-- The same holds of a walk over some nodes with the same ancestors. -/
@[simp]
theorem visitAll_types (v : Visitor σ) (s : Schema) (doc : Document) (inlining : List String)
    (ancestors ns : List Node) (p : Progress σ) :
    (visitAll v s doc inlining ancestors ns p).types = p.types := by
  induction ns generalizing p with
  | nil => rfl
  | cons n ns ih => rw [visitAll_cons, ih, visit_types]

end GraphQLCheck
