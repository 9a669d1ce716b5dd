import GraphQLCheck.Proofs.Traversal.Steps

/-!
# The calls that a visitor receives

A visitor may do what another one does and keep more in mind: `visit_of_extends` says that its walk
is the other one's, as far as the other one's memory goes. `Visitor.noting` is such a visitor, which
notes something down at every call of `enter` and `leave`, and `Visitor.watched` is the one that
notes the calls themselves, with the whole context. So what the list shows is what the visitor
itself has been told, and what it has returned (`visit_noting`, `visit_watched`).
-/

namespace GraphQLCheck

variable {σ : Type}

/-- Whether a visitor does what another one does, with a memory of which that one's is a part. -/
structure Visitor.Extends {τ : Type} (w : Visitor τ) (v : Visitor σ) (part : τ → σ) : Prop where
  enter : ∀ ctx n m, v.enter ctx n (part m) = (part (w.enter ctx n m).1, (w.enter ctx n m).2)
  leave : ∀ ctx n m, v.leave ctx n (part m) = (part (w.leave ctx n m).1, (w.leave ctx n m).2)
  visitsSpreads : v.visitsSpreads = w.visitsSpreads
  inlineSpread : ∀ ctx spread m, v.inlineSpread ctx spread (part m) =
    (part (w.inlineSpread ctx spread m).1, (w.inlineSpread ctx spread m).2)

namespace Visitor.Extends

variable {τ : Type} {w : Visitor τ} {v : Visitor σ} {part : τ → σ} {ctx : Context} {n : Node}
  {spread : FragmentSpread} {m m' : τ}

/-- What is done on entering a node. -/
theorem enter_eq (h : w.Extends v part) {response : Response}
    (henter : w.enter ctx n m = (m', response)) : v.enter ctx n (part m) = (part m', response) := by
  rw [h.enter, henter]

/-- What is done on leaving a node. -/
theorem leave_eq (h : w.Extends v part) {errors : List ValidationError}
    (hleave : w.leave ctx n m = (m', errors)) : v.leave ctx n (part m) = (part m', errors) := by
  rw [h.leave, hleave]

/-- What is answered at a spread. -/
theorem inlineSpread_eq (h : w.Extends v part) {inline : Bool}
    (hask : w.inlineSpread ctx spread m = (m', inline)) :
    v.inlineSpread ctx spread (part m) = (part m', inline) := by
  rw [h.inlineSpread, hask]

end Visitor.Extends

/-- The progress with only a part of the memory. -/
def Progress.restrict {τ : Type} (p : Progress τ) (part : τ → σ) : Progress σ :=
  ⟨p.types, part p.memory, p.errors⟩

/-- A visitor that does what another one does walks as that one does. -/
theorem visit_of_extends {τ : Type} {w : Visitor τ} {v : Visitor σ} {part : τ → σ}
    (h : w.Extends v part) (s : Schema) (doc : Document) (inlining : List String)
    (ancestors : List Node) (isRoot : Bool) (n : Node) (p : Progress τ) :
    visit v s doc inlining ancestors isRoot n (p.restrict part) =
      (visit w s doc inlining ancestors isRoot n p).restrict part := by
  have hdrops (isRoot : Bool) (n : Node) : v.drops isRoot n = w.drops isRoot n := by
    rw [Visitor.drops, Visitor.drops, h.visitsSpreads]
  -- the extending visit is the one that is taken apart; the other follows it equation by equation
  refine visit_induct (v := w)
    (P := fun inlining ancestors isRoot n p p' =>
      visit v s doc inlining ancestors isRoot n (p.restrict part) = p'.restrict part)
    (Q := fun inlining ancestors ns p p' =>
      visitAll v s doc inlining ancestors ns (p.restrict part) = p'.restrict part)
    (R := fun inlining ancestors n p p' =>
      visitFragment v s doc inlining ancestors n (p.restrict part) = p'.restrict part)
    { dropped := ?dropped, skipped := ?skipped, reported := ?reported, entered := ?entered
      nil := ?nil, cons := ?cons, unasked := ?unasked, refused := ?refused, inlined := ?inlined }
    inlining ancestors isRoot n p
  case dropped =>
    intro inlining ancestors isRoot n p hdrop
    exact visit_of_drops ((hdrops isRoot n).trans hdrop)
  case skipped =>
    intro inlining ancestors isRoot n p m hdrop henter
    exact visit_of_skip ((hdrops isRoot n).trans hdrop) (h.enter_eq henter)
  case reported =>
    intro inlining ancestors isRoot n p m errors hdrop henter
    exact visit_of_report ((hdrops isRoot n).trans hdrop) (h.enter_eq henter)
  case entered =>
    intro inlining ancestors isRoot n p m p₁ p₂ m' errors hdrop henter hR htypes₁ htypes₂ hQ hleave
    calc visit v s doc inlining ancestors isRoot n (p.restrict part)
      _ = leaveNode v s doc inlining ancestors n (visitAll v s doc inlining (n :: ancestors)
            n.children (visitFragment v s doc inlining ancestors n _)) :=
          visit_of_proceed ((hdrops isRoot n).trans hdrop) (h.enter_eq henter)
      _ = leaveNode v s doc inlining ancestors n (visitAll v s doc inlining (n :: ancestors)
            n.children (p₁.restrict part)) :=
          congrArg (fun q => leaveNode v s doc inlining ancestors n
            (visitAll v s doc inlining (n :: ancestors) n.children q)) hR
      _ = leaveNode v s doc inlining ancestors n (p₂.restrict part) := by rw [hQ]
      _ = _ := leaveNode_of_types (htypes₂.trans htypes₁) (h.leave_eq hleave)
  case nil =>
    intro inlining ancestors p
    rfl
  case cons =>
    intro inlining ancestors n ns p p₁ p₂ hP _ hQ
    rw [visitAll, List.foldl_cons, hP]
    exact hQ
  case unasked =>
    intro inlining ancestors n p hn
    exact visitFragment_of_unasked fun spread hspread => h.visitsSpreads.trans (hn spread hspread)
  case refused =>
    intro inlining ancestors spread p m inline hspreads hask hno
    exact visitFragment_of_refused (p := p.restrict part) (h.visitsSpreads.trans hspreads)
      (h.inlineSpread_eq hask) hno
  case inlined =>
    intro inlining ancestors spread d p m p' hspreads hask hmem hd hP
    exact (visitFragment_of_inlined (p := p.restrict part) (h.visitsSpreads.trans hspreads)
      (h.inlineSpread_eq hask) hmem hd).trans hP

/-- The visitor that does the same, and keeps what it has noted at each call, oldest first. What is
noted may depend on what the visitor returns. -/
def Visitor.noting {α : Type} (v : Visitor σ) (onEnter : Context → Node → Response → List α)
    (onLeave : Context → Node → List ValidationError → List α) : Visitor (σ × List α) where
  enter ctx n m :=
    (((v.enter ctx n m.1).1, m.2 ++ onEnter ctx n (v.enter ctx n m.1).2), (v.enter ctx n m.1).2)
  leave ctx n m :=
    (((v.leave ctx n m.1).1, m.2 ++ onLeave ctx n (v.leave ctx n m.1).2), (v.leave ctx n m.1).2)
  visitsSpreads := v.visitsSpreads
  inlineSpread ctx spread m :=
    (((v.inlineSpread ctx spread m.1).1, m.2), (v.inlineSpread ctx spread m.1).2)

/-- The progress without what has been noted. -/
def Progress.unnoted {α : Type} (p : Progress (σ × List α)) : Progress σ :=
  ⟨p.types, p.memory.1, p.errors⟩

/-- A visitor that notes something down does what it does otherwise. -/
theorem visit_noting {α : Type} (v : Visitor σ) (onEnter : Context → Node → Response → List α)
    (onLeave : Context → Node → List ValidationError → List α) (s : Schema) (doc : Document)
    (inlining : List String) (ancestors : List Node) (isRoot : Bool) (n : Node)
    (p : Progress (σ × List α)) :
    visit v s doc inlining ancestors isRoot n p.unnoted =
      (visit (v.noting onEnter onLeave) s doc inlining ancestors isRoot n p).unnoted := by
  have hextends : (v.noting onEnter onLeave).Extends v Prod.fst :=
    ⟨fun _ _ _ => rfl, fun _ _ _ => rfl, rfl, fun _ _ _ => rfl⟩
  exact visit_of_extends hextends s doc inlining ancestors isRoot n p

/-- One call of a visitor: it has been told that a node is entered, or that it is left. -/
inductive Call where
  | enter (ctx : Context) (n : Node)
  | leave (ctx : Context) (n : Node)

/-- The visitor that does the same, and keeps the calls it has received, oldest first. -/
def Visitor.watched (v : Visitor σ) : Visitor (σ × List Call) where
  enter ctx n m := (((v.enter ctx n m.1).1, m.2 ++ [.enter ctx n]), (v.enter ctx n m.1).2)
  leave ctx n m := (((v.leave ctx n m.1).1, m.2 ++ [.leave ctx n]), (v.leave ctx n m.1).2)
  visitsSpreads := v.visitsSpreads
  inlineSpread ctx spread m :=
    (((v.inlineSpread ctx spread m.1).1, m.2), (v.inlineSpread ctx spread m.1).2)

/-- The progress without the calls. -/
def Progress.unwatched (p : Progress (σ × List Call)) : Progress σ :=
  ⟨p.types, p.memory.1, p.errors⟩

/-- Watching a visitor does not change what it does. -/
theorem visit_watched (v : Visitor σ) (s : Schema) (doc : Document) (inlining : List String)
    (ancestors : List Node) (isRoot : Bool) (n : Node) (p : Progress (σ × List Call)) :
    visit v s doc inlining ancestors isRoot n p.unwatched =
      (visit v.watched s doc inlining ancestors isRoot n p).unwatched :=
  visit_noting v (fun ctx n _ => [Call.enter ctx n]) (fun ctx n _ => [Call.leave ctx n]) s doc
    inlining ancestors isRoot n p

end GraphQLCheck
