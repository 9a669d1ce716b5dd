import GraphQLCheck.Proofs.Traversal.Independence
import GraphQLCheck.Proofs.Traversal.Paths
import Mathlib.Data.List.Forall2

/-!
# Where the errors of a rule are located

A visitor returns errors at nodes. They are written down together with what the visitor does at the
nodes (`Visitor.recording`), and which nodes are around an error is read off this list of events:
those that have been gone on with and not yet left (`returnedFrom`). An error is recorded at the
places of its own nodes, or else at the nearest place around it (`ValidationError.IsLocated`).

A single stack of places is enough to find these nearest places (`locateAll`): a place is put on it
when a node that has one is gone on with, and taken off again when the node is left.

Main statements: what a rule records are just the errors that its visitor returns, each of them
located so (`Rule.forall₂_isLocated`), the stack finds the same (`Rule.errors_eq_locateAll`), and
every error is returned at the end of a way from the document (`Recording.way_of_mem`). A rule
whose visitor returns no errors there finds nothing (`Rule.errors_eq_nil`).
-/

namespace GraphQLCheck

/-- The errors that are reported with a response. -/
def Response.errors : Response → List ValidationError
  | .report errors => errors
  | .proceed | .skip => []

/-- What becomes of a node during a walk: it is gone on with, its visit is cut short, or it is left
after its children. Errors may be returned in the latter two cases. -/
inductive WalkEvent where
  | goneOn (n : Node)
  | cutShort (n : Node) (errors : List ValidationError)
  | left (n : Node) (errors : List ValidationError)

/-- The errors that are returned with an event. -/
def WalkEvent.errors : WalkEvent → List ValidationError
  | .goneOn _ => []
  | .cutShort _ errors | .left _ errors => errors

/-- What becomes of a node on entering it. -/
def Response.event (n : Node) : Response → WalkEvent
  | .proceed => .goneOn n
  | .skip => .cutShort n []
  | .report errors => .cutShort n errors

section

variable {σ : Type}

/-- The visitor that does the same, and keeps what becomes of the nodes and what it returns. -/
def Visitor.recording (v : Visitor σ) : Visitor (σ × List WalkEvent) :=
  v.noting (fun _ n response => [response.event n]) (fun _ n errors => [.left n errors])

/-- Whether all errors that a visitor returns at a node meet a condition. -/
structure Visitor.Reports (v : Visitor σ) (C : Node → ValidationError → Prop) : Prop where
  enter : ∀ ctx n m, ∀ e ∈ (v.enter ctx n m).2.errors, C n e
  leave : ∀ ctx n m, ∀ e ∈ (v.leave ctx n m).2, C n e

end

/-- What happens on the walk of a rule. -/
def Rule.events (rule : Rule) (s : Schema) (doc : Document) : List WalkEvent :=
  (visit rule.visitor.recording s doc [] [] true (.document doc)
    ⟨.empty, (rule.start ⟨s, doc, .empty, [], []⟩, []), []⟩).memory.2

/-- An error that has been returned at a node. The path begins with the node, and the nodes around
it follow, innermost first. -/
structure ReturnedError where
  error : ValidationError
  path : List Node

/-- The errors that are returned during some events, inside a chain of nodes. -/
def returnedFrom (chain : List Node) : List WalkEvent → List ReturnedError
  | [] => []
  | .goneOn n :: events => returnedFrom (n :: chain) events
  | .cutShort n errors :: events =>
    errors.map (fun e => ⟨e, n :: chain⟩) ++ returnedFrom chain events
  | .left n errors :: events =>
    errors.map (fun e => ⟨e, n :: chain.tail⟩) ++ returnedFrom chain.tail events

/-- Nothing is returned during events without errors. -/
theorem returnedFrom_eq_nil {chain : List Node} {events : List WalkEvent}
    (h : ∀ event ∈ events, event.errors = []) : returnedFrom chain events = [] := by
  induction events generalizing chain with
  | nil => rfl
  | cons event events ih =>
    obtain ⟨hevent, hevents⟩ := List.forall_mem_cons.1 h
    cases event with
    | goneOn n => exact ih hevents
    | cutShort n errors | left n errors =>
      obtain rfl : errors = [] := hevent
      exact ih hevents

/-- The errors that are returned during some events, located with a stack of places: those that have
no place of their own at the place of the node, or else at the place on top of the stack. -/
def locateAll (places : List Position) : List WalkEvent → List ValidationError
  | [] => []
  | .goneOn n :: events => locateAll (n.position?.toList ++ places) events
  | .cutShort n errors :: events =>
    errors.map (·.orLocatedAt (n.position?.or places.head?)) ++ locateAll places events
  | .left n errors :: events =>
    errors.map (·.orLocatedAt (n.position?.or places.head?)) ++
      locateAll (if n.position?.isSome then places.tail else places) events

/-- Whether an error is recorded as one that has been returned, and at the right place: at the
places of its own nodes, in order, if any of them has one, and else at that of the first node on
the path that has one, or nowhere if there is none. -/
structure ValidationError.IsLocated (r : ReturnedError) (e : ValidationError) : Prop where
  message : e.message = r.error.message
  nodes : e.nodes = r.error.nodes
  own : r.error.nodes.filterMap Node.position? ≠ [] →
    e.locations = r.error.nodes.filterMap Node.position?
  nearest : r.error.nodes.filterMap Node.position? = [] →
    (∃ before n after place, r.path = before ++ n :: after ∧
      (∀ m ∈ before, m.position? = none) ∧ n.position? = some place ∧ e.locations = [place]) ∨
    (∀ m ∈ r.path, m.position? = none) ∧ e.locations = []

/-- Whether an error is located at the places of its nodes, as far as these have one. -/
def ValidationError.IsOfNodes (e : ValidationError) : Prop := e = .ofNodes e.message e.nodes

/-- The error that is recorded for one that has been returned. -/
def ReturnedError.located (r : ReturnedError) : ValidationError :=
  r.error.orLocatedAt (r.path.findSome? Node.position?)

/-- An error that is located at the places of its own nodes is recorded at the right place. -/
theorem ReturnedError.isLocated_located {r : ReturnedError} (h : r.error.IsOfNodes) :
    r.located.IsLocated r := by
  have hlocations : r.error.locations = r.error.nodes.filterMap Node.position? :=
    congrArg ValidationError.locations h
  unfold ReturnedError.located ValidationError.orLocatedAt
  by_cases hown : r.error.nodes.filterMap Node.position? = []
  · rw [if_pos (hlocations.trans hown)]
    refine ⟨rfl, rfl, fun hne => absurd hown hne, fun _ => ?_⟩
    cases hplace : r.path.findSome? Node.position? with
    | none => exact .inr ⟨List.findSome?_eq_none_iff.1 hplace, rfl⟩
    | some place =>
      obtain ⟨before, n, after, hpath, hn, hbefore⟩ := List.findSome?_eq_some_iff.1 hplace
      exact .inl ⟨before, n, after, place, hpath, hbefore, hn, rfl⟩
  · rw [if_neg fun hnil => hown (hlocations.symm.trans hnil)]
    exact ⟨rfl, rfl, fun _ => hlocations, fun hnil => absurd hnil hown⟩

/-- The events that may happen inside a chain of nodes, with the errors that are returned there. The
events inside a node stand between those of going on with it and of leaving it. -/
inductive Recording (doc : Document) (C : Node → ValidationError → Prop) :
    List Node → List WalkEvent → List ReturnedError → Prop
  | nil {chain : List Node} : Recording doc C chain [] []
  | cutShort {chain : List Node} {n : Node} {errors : List ValidationError}
      {events : List WalkEvent} {returned : List ReturnedError} (hn : Follows doc chain n)
      (herrors : ∀ e ∈ errors, C n e) (hrest : Recording doc C chain events returned) :
      Recording doc C chain (.cutShort n errors :: events)
        (errors.map (fun e => ⟨e, n :: chain⟩) ++ returned)
  | visited {chain : List Node} {n : Node} {errors : List ValidationError}
      {inside events : List WalkEvent} {returned returned' : List ReturnedError}
      (hn : Follows doc chain n) (herrors : ∀ e ∈ errors, C n e)
      (hinside : Recording doc C (n :: chain) inside returned)
      (hrest : Recording doc C chain events returned') :
      Recording doc C chain (.goneOn n :: (inside ++ .left n errors :: events))
        (returned ++ (errors.map (fun e => ⟨e, n :: chain⟩) ++ returned'))

namespace Recording

variable {doc : Document} {C : Node → ValidationError → Prop} {chain : List Node}
  {events events' : List WalkEvent} {returned returned' : List ReturnedError}

/-- Events inside the same chain may follow each other. -/
theorem append (h : Recording doc C chain events returned)
    (h' : Recording doc C chain events' returned') :
    Recording doc C chain (events ++ events') (returned ++ returned') := by
  induction h with
  | nil => exact h'
  | cutShort hn herrors _ ih =>
    rw [List.cons_append, List.append_assoc]
    exact .cutShort hn herrors (ih h')
  | visited hn herrors hinside _ _ ih =>
    simp only [List.cons_append, List.append_assoc]
    exact .visited hn herrors hinside (ih h')

/-- The errors that are returned are those read off the events. -/
theorem returnedFrom_append (h : Recording doc C chain events returned) (rest : List WalkEvent) :
    returnedFrom chain (events ++ rest) = returned ++ returnedFrom chain rest := by
  -- `rest` takes up what follows the events inside a node, too
  induction h generalizing rest with
  | nil => rfl
  | cutShort _ _ _ ih =>
    rw [List.cons_append, returnedFrom, ih, List.append_assoc]
  | visited _ _ _ _ ih₁ ih₂ =>
    simp only [List.cons_append, List.append_assoc, returnedFrom, List.tail_cons, ih₁, ih₂]

/-- All errors that are returned are read off the events. -/
theorem returnedFrom_eq (h : Recording doc C chain events returned) :
    returnedFrom chain events = returned := by
  have happend := h.returnedFrom_append []
  rw [List.append_nil, returnedFrom, List.append_nil] at happend
  exact happend

/-- The nearest place is that of the node, or else the one on top of the places around it. -/
theorem findSome?_position?_cons (n : Node) (chain : List Node) :
    (n :: chain).findSome? Node.position? =
      n.position?.or (chain.filterMap Node.position?).head? := by
  rw [List.head?_filterMap, List.findSome?_cons]
  cases n.position? <;> rfl

/-- The places around a node are on the stack, so it finds the nearest ones. -/
theorem locateAll_append (h : Recording doc C chain events returned) (rest : List WalkEvent) :
    locateAll (chain.filterMap Node.position?) (events ++ rest) =
      returned.map ReturnedError.located ++
        locateAll (chain.filterMap Node.position?) rest := by
  have hlocated (n : Node) (chain : List Node) (errors : List ValidationError) :
      (errors.map fun e => (⟨e, n :: chain⟩ : ReturnedError)).map ReturnedError.located =
        errors.map (·.orLocatedAt (n.position?.or (chain.filterMap Node.position?).head?)) := by
    rw [List.map_map, ← findSome?_position?_cons]
    rfl
  induction h generalizing rest with
  | nil => rfl
  | cutShort _ _ _ ih =>
    rw [List.cons_append, locateAll, ih, List.map_append, hlocated, List.append_assoc]
  | @visited chain n errors inside events returned returned' _ _ _ _ ih₁ ih₂ =>
    -- the place of a node is on the stack while it is being visited
    have hpush : n.position?.toList ++ chain.filterMap Node.position? =
        (n :: chain).filterMap Node.position? := by
      rw [List.filterMap_cons]
      cases n.position? <;> rfl
    have htop : n.position?.or ((n :: chain).filterMap Node.position?).head? =
        n.position?.or (chain.filterMap Node.position?).head? := by
      rw [List.filterMap_cons]
      cases n.position? <;> rfl
    have hpop : (if n.position?.isSome then ((n :: chain).filterMap Node.position?).tail
        else (n :: chain).filterMap Node.position?) = chain.filterMap Node.position? := by
      rw [List.filterMap_cons]
      cases n.position? <;> rfl
    rw [List.cons_append, locateAll, hpush, List.append_assoc, ih₁, List.cons_append, locateAll,
      htop, hpop, ih₂, List.map_append, List.map_append, hlocated, List.append_assoc,
      List.append_assoc]

/-- Every error is returned at the end of a way, and meets the condition there. -/
theorem way_of_mem (h : Recording doc C chain events returned) (hway : Way doc [] chain)
    {r : ReturnedError} (hr : r ∈ returned) :
    ∃ n rest, r.path = n :: rest ∧ Way doc [] (n :: rest) ∧ C n r.error := by
  -- what is returned at a node itself
  have hown {chain : List Node} {n : Node} {errors : List ValidationError}
      (hway : Way doc [] chain) (hn : Follows doc chain n) (herrors : ∀ e ∈ errors, C n e)
      (hr : r ∈ errors.map fun e => (⟨e, n :: chain⟩ : ReturnedError)) :
      ∃ n rest, r.path = n :: rest ∧ Way doc [] (n :: rest) ∧ C n r.error := by
    obtain ⟨e, he, rfl⟩ := List.mem_map.1 hr
    exact ⟨n, chain, rfl, .step hway hn, herrors e he⟩
  induction h with
  | nil => exact absurd hr List.not_mem_nil
  | cutShort hn herrors _ ih =>
    rcases List.mem_append.1 hr with hr | hr
    · exact hown hway hn herrors hr
    · exact ih hway hr
  | visited hn herrors _ _ ih₁ ih₂ =>
    rcases List.mem_append.1 hr with hr | hr
    · exact ih₁ (.step hway hn) hr
    · rcases List.mem_append.1 hr with hr | hr
      · exact hown hway hn herrors hr
      · exact ih₂ hway hr

end Recording

section Walk

variable {σ : Type}

/-- Some events have been recorded inside a chain of nodes, and the errors that have been returned
there, located at the nearest places. -/
private def AddsRecording (doc : Document) (C : Node → ValidationError → Prop) (chain : List Node)
    (p p' : Progress (σ × List WalkEvent)) : Prop :=
  ∃ events returned, p'.memory.2 = p.memory.2 ++ events ∧ Recording doc C chain events returned ∧
    p'.errors = p.errors ++ returned.map ReturnedError.located

/-- Where nothing is recorded, there is nothing new. -/
private theorem AddsRecording.refl {doc : Document} {C : Node → ValidationError → Prop}
    {chain : List Node} {p p' : Progress (σ × List WalkEvent)} (hmemory : p'.memory.2 = p.memory.2)
    (herrors : p'.errors = p.errors) : AddsRecording doc C chain p p' := by
  refine ⟨[], [], ?_, .nil, ?_⟩
  · rw [List.append_nil, hmemory]
  · rw [List.map_nil, List.append_nil, herrors]

/-- A visit that is cut short adds one event, and the errors that come with it. -/
private theorem AddsRecording.cutShort {doc : Document} {C : Node → ValidationError → Prop}
    {chain : List Node} {n : Node} {errors : List ValidationError}
    {p p' : Progress (σ × List WalkEvent)} (hn : Follows doc chain n)
    (hreports : ∀ e ∈ errors, C n e) (hmemory : p'.memory.2 = p.memory.2 ++ [.cutShort n errors])
    (herrors : p'.errors = p.errors ++
      errors.map (·.orLocatedAt (nearestPosition n chain))) :
    AddsRecording doc C chain p p' := by
  refine ⟨_, _, hmemory, .cutShort hn hreports .nil, ?_⟩
  rw [herrors, List.append_nil, List.map_map]
  rfl

/-- What is visited inside a chain adds a recording. -/
private theorem visit_addsRecording {v : Visitor σ} {C : Node → ValidationError → Prop}
    (hv : v.Reports C) (s : Schema) (doc : Document) (inlining : List String) (chain : List Node)
    (isRoot : Bool) (n : Node) (p : Progress (σ × List WalkEvent)) :
    Follows doc chain n →
      AddsRecording doc C chain p (visit v.recording s doc inlining chain isRoot n p) := by
  -- `R` is inside the spread, since the fragment is visited before the spread is left
  refine visit_induct (v := v.recording)
    (P := fun _ chain _ n p p' => Follows doc chain n → AddsRecording doc C chain p p')
    (Q := fun _ chain ns p p' => (∀ n ∈ ns, Follows doc chain n) → AddsRecording doc C chain p p')
    (R := fun _ chain n p p' => AddsRecording doc C (n :: chain) p p')
    { dropped := ?dropped, skipped := ?skipped, reported := ?reported, entered := ?entered
      nil := ?nil, cons := ?cons, unasked := ?unasked, refused := ?refused, inlined := ?inlined }
    inlining chain isRoot n p
  case dropped =>
    intro inlining chain isRoot n p hdrop hn
    exact .refl rfl rfl
  case skipped =>
    intro inlining chain isRoot n p m hdrop henter hn
    obtain ⟨rfl, hskip⟩ := Prod.mk.inj henter
    let ctx : Context := ⟨s, doc, p.types.enter s n, chain, inlining⟩
    have hevent : (v.enter ctx n p.memory.1).2.event n = .cutShort n [] :=
      congrArg (Response.event n) hskip
    refine .cutShort hn (fun e he => absurd he List.not_mem_nil) ?_ (List.append_nil _).symm
    exact congrArg (fun event => p.memory.2 ++ [event]) hevent
  case reported =>
    intro inlining chain isRoot n p m errors hdrop henter hn
    obtain ⟨rfl, hreport⟩ := Prod.mk.inj henter
    let ctx : Context := ⟨s, doc, p.types.enter s n, chain, inlining⟩
    have hevent : (v.enter ctx n p.memory.1).2.event n = .cutShort n errors :=
      congrArg (Response.event n) hreport
    have herrors : (v.enter ctx n p.memory.1).2.errors = errors := congrArg Response.errors hreport
    have hreports : ∀ e ∈ errors, C n e := herrors ▸ hv.enter ctx n p.memory.1
    exact .cutShort hn hreports (congrArg (fun event => p.memory.2 ++ [event]) hevent) rfl
  case entered =>
    intro inlining chain isRoot n p m p₁ p₂ m' errors hdrop henter hR _ _ hQ hleave hn
    obtain ⟨rfl, hproceed⟩ := Prod.mk.inj henter
    obtain ⟨rfl, rfl⟩ := Prod.mk.inj hleave
    let ctx : Context := ⟨s, doc, p.types.enter s n, chain, inlining⟩
    have hevent : (v.enter ctx n p.memory.1).2.event n = .goneOn n :=
      congrArg (Response.event n) hproceed
    -- the events of the inlined fragment, then those of the children
    obtain ⟨events₁, returned₁, hmemory₁, hrecording₁, herrors₁⟩ := hR
    obtain ⟨events₂, returned₂, hmemory₂, hrecording₂, herrors₂⟩ := hQ fun c hc => .child hc
    let errors := (v.leave ctx n p₂.memory.1).2
    have hmemory : p₂.memory.2 = p.memory.2 ++ .goneOn n :: (events₁ ++ events₂) := by
      calc p₂.memory.2
        _ = p.memory.2 ++ [(v.enter ctx n p.memory.1).2.event n] ++ events₁ ++ events₂ := by
            rw [hmemory₂, hmemory₁]
        _ = p.memory.2 ++ .goneOn n :: (events₁ ++ events₂) := by
            rw [hevent, List.append_assoc, List.append_assoc, List.singleton_append]
    refine ⟨.goneOn n :: ((events₁ ++ events₂) ++ [.left n errors]),
      (returned₁ ++ returned₂) ++ (errors.map (fun e => ⟨e, n :: chain⟩) ++ []), ?_,
      .visited hn (hv.leave ctx n p₂.memory.1) (hrecording₁.append hrecording₂) .nil, ?_⟩
    · show p₂.memory.2 ++ [.left n errors] = _
      rw [hmemory, List.append_assoc, List.cons_append]
    · show p₂.errors ++ errors.map (·.orLocatedAt (nearestPosition n chain)) = _
      rw [herrors₂, herrors₁, List.append_nil, List.map_append, List.map_append, List.map_map]
      simp only [List.append_assoc]
      rfl
  case nil =>
    intro inlining chain p hns
    exact .refl rfl rfl
  case cons =>
    intro inlining chain n ns p p₁ p₂ hP _ hQ hns
    obtain ⟨events₁, returned₁, hmemory₁, hrecording₁, herrors₁⟩ := hP (hns n List.mem_cons_self)
    obtain ⟨events₂, returned₂, hmemory₂, hrecording₂, herrors₂⟩ :=
      hQ fun m hm => hns m (List.mem_cons_of_mem n hm)
    refine ⟨events₁ ++ events₂, returned₁ ++ returned₂, ?_, hrecording₁.append hrecording₂, ?_⟩
    · rw [hmemory₂, hmemory₁, List.append_assoc]
    · rw [herrors₂, herrors₁, List.append_assoc, List.map_append]
  case unasked =>
    intro inlining chain n p hn
    exact .refl rfl rfl
  case refused =>
    intro inlining chain spread p m inline hspreads hask hno
    obtain ⟨rfl, -⟩ := Prod.mk.inj hask
    exact .refl rfl rfl
  case inlined =>
    intro inlining chain spread d p m p' hspreads hask hmem hd hP
    obtain ⟨rfl, -⟩ := Prod.mk.inj hask
    exact hP (.fragment hd)

end Walk

section Rules

variable {rule : Rule} {C : Node → ValidationError → Prop}

/-- The errors that a rule's visitor returns on its walk. -/
def Rule.returned (rule : Rule) (s : Schema) (doc : Document) : List ReturnedError :=
  returnedFrom [] (rule.events s doc)

/-- What a rule records are the errors that its visitor returns on the walk, each of them located at
the nearest place. -/
theorem Rule.recording_events (hrule : rule.visitor.Reports C) (s : Schema) (doc : Document) :
    Recording doc C [] (rule.events s doc) (rule.returned s doc) ∧
      (rule.outcome s doc).errors = (rule.returned s doc).map ReturnedError.located := by
  let start : Progress (rule.Memory × List WalkEvent) :=
    ⟨.empty, (rule.start ⟨s, doc, .empty, [], []⟩, []), []⟩
  let p := visit rule.visitor.recording s doc [] [] true (.document doc) start
  obtain ⟨events, returned, hmemory, hrecording, herrors⟩ :
      AddsRecording doc C [] start p :=
    visit_addsRecording hrule s doc [] [] true (.document doc) start .document
  have hevents : rule.events s doc = events := hmemory
  have hreturned : rule.returned s doc = returned := by
    rw [Rule.returned, hevents, hrecording.returnedFrom_eq]
  -- the rule itself does not record anything, but finds the same
  have hsame : visit rule.visitor s doc [] [] true (.document doc) start.unnoted = p.unnoted :=
    visit_noting rule.visitor _ _ s doc [] [] true (.document doc) start
  refine ⟨by rw [hevents, hreturned]; exact hrecording, ?_⟩
  calc (rule.outcome s doc).errors
    _ = (visit rule.visitor s doc [] [] true (.document doc) start.unnoted).errors := rfl
    _ = p.errors := congrArg Progress.errors hsame
    _ = returned.map ReturnedError.located := herrors
    _ = (rule.returned s doc).map ReturnedError.located := by rw [hreturned]

/-- A rule finds nothing if its visitor returns no errors at the nodes to which a walk over the
document comes. -/
theorem Rule.errors_eq_nil {rule : Rule} {s : Schema} {doc : Document}
    (h : ∀ ctx n m, ctx.At s doc [] n →
      (rule.visitor.enter ctx n m).2.errors = [] ∧ (rule.visitor.leave ctx n m).2 = []) :
    (rule.outcome s doc).errors = [] := by
  have hkeeps : rule.visitor.recording.Keeps s doc []
      fun m => ∀ event ∈ m.2, event.errors = [] := by
    refine ⟨fun ctx n m hat hm => ?_, fun ctx n m hat hm => ?_, fun ctx spread m hm => hm⟩
    · obtain ⟨henter, -⟩ := h ctx n m.1 hat
      refine List.forall_mem_append.2 ⟨hm, List.forall_mem_singleton.2 ?_⟩
      rw [← henter]
      cases (rule.visitor.enter ctx n m.1).2 <;> rfl
    · obtain ⟨-, hleave⟩ := h ctx n m.1 hat
      exact List.forall_mem_append.2 ⟨hm, List.forall_mem_singleton.2 hleave⟩
  have hevents : ∀ event ∈ rule.events s doc, event.errors = [] :=
    visit_keeps hkeeps [] [] true (.document doc) _ (.step .here .document) rfl
      fun event he => absurd he List.not_mem_nil
  have hany : rule.visitor.Reports fun _ _ => True :=
    ⟨fun _ _ _ _ _ => trivial, fun _ _ _ _ _ => trivial⟩
  obtain ⟨-, herrors⟩ := Rule.recording_events hany s doc
  rw [herrors, Rule.returned, returnedFrom_eq_nil hevents, List.map_nil]

/-- A check finds nothing if it finds nothing at the nodes to which a walk over the document comes.
-/
theorem Rule.errors_ofCheck_eq_nil {s : Schema} {doc : Document} {name : String}
    {check : Context → Node → List ValidationError}
    (h : ∀ ctx n, ctx.At s doc [] n → check ctx n = []) :
    ((Rule.ofCheck name check).outcome s doc).errors = [] := by
  refine Rule.errors_eq_nil fun ctx n m hat => ⟨?_, rfl⟩
  have hnone := h ctx n hat
  simp only [Rule.ofCheck, Visitor.ofCheck, hnone, Response.errors]

/-- A stack of places is enough to locate the errors that a rule's visitor returns. -/
theorem Rule.errors_eq_locateAll (rule : Rule) (s : Schema) (doc : Document) :
    (rule.outcome s doc).errors = locateAll [] (rule.events s doc) := by
  have hany : rule.visitor.Reports fun _ _ => True :=
    ⟨fun _ _ _ _ _ => trivial, fun _ _ _ _ _ => trivial⟩
  obtain ⟨hrecording, herrors⟩ := Rule.recording_events hany s doc
  have hlocated := hrecording.locateAll_append []
  rw [List.append_nil, List.filterMap_nil, locateAll, List.append_nil] at hlocated
  rw [herrors, hlocated]

/-- A rule whose errors are located at the places of their nodes records all of them at the right
places. -/
theorem Rule.forall₂_isLocated (hrule : rule.visitor.Reports fun _ e => e.IsOfNodes) (s : Schema)
    (doc : Document) :
    List.Forall₂ (fun r e => e.IsLocated r) (rule.returned s doc) (rule.outcome s doc).errors := by
  obtain ⟨hrecording, herrors⟩ := Rule.recording_events hrule s doc
  rw [herrors, List.forall₂_map_right_iff, List.forall₂_same]
  intro r hr
  obtain ⟨-, -, -, -, hofNodes⟩ := hrecording.way_of_mem .here hr
  exact r.isLocated_located hofNodes

end Rules

end GraphQLCheck
