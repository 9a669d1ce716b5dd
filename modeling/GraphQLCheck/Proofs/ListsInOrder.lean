import Mathlib.Data.List.Basic
import Mathlib.Data.List.Perm.Basic

/-!
# Lists of what is found at some places

A check goes over some places in order and lists what it finds. `ListsInOrder` says what such a list
consists of without the check: it has one element for everything that a relation relates to a place,
and its elements come in the order of their places.

Main statements: such lists are put together from lists for parts of the places
(`ListsInOrder.append`, `ListsInOrder.flatMap`, `ListsInOrder.flatMap_zipIdx`), and there is only
one such list (`ListsInOrder.unique`).
-/

namespace GraphQLCheck

section

variable {α κ ε : Type} {lt : κ → κ → Prop} {P Q : κ → ε → Prop} {es es' : List ε}

/-- Whether a list consists of what a relation relates to places, once for each place to which it is
related, in the order of the places. -/
def ListsInOrder (lt : κ → κ → Prop) (P : κ → ε → Prop) (es : List ε) : Prop :=
  ∃ found : List (κ × ε), found.map Prod.snd = es ∧ found.Pairwise (fun a b => lt a.1 b.1) ∧
    ∀ k e, (k, e) ∈ found ↔ P k e

namespace ListsInOrder

/-- Relations that relate the same are listed by the same list. -/
theorem congr (h : ListsInOrder lt P es) (hiff : ∀ k e, P k e ↔ Q k e) :
    ListsInOrder lt Q es := by
  obtain ⟨found, hes, hsorted, hmem⟩ := h
  exact ⟨found, hes, hsorted, fun k e => (hmem k e).trans (hiff k e)⟩

/-- A relation that relates nothing is listed by no elements. -/
theorem nil (h : ∀ k e, ¬ P k e) : ListsInOrder lt P [] :=
  ⟨[], rfl, .nil, fun k e => ⟨fun hmem => (nomatch hmem), fun hP => absurd hP (h k e)⟩⟩

/-- A relation that relates one thing to one place is listed by one element. -/
theorem singleton {k : κ} {e : ε} (h : ∀ k' e', P k' e' ↔ k' = k ∧ e' = e) :
    ListsInOrder lt P [e] := by
  refine ⟨[(k, e)], rfl, List.pairwise_singleton _ _, fun k' e' => ?_⟩
  rw [h, List.mem_singleton, Prod.mk.injEq]

/-- If all places of one relation come before those of another one, the list of the one is followed
by the list of the other. -/
theorem append (h : ListsInOrder lt P es) (h' : ListsInOrder lt Q es')
    (hlt : ∀ k e k' e', P k e → Q k' e' → lt k k') :
    ListsInOrder lt (fun k e => P k e ∨ Q k e) (es ++ es') := by
  obtain ⟨found, rfl, hsorted, hmem⟩ := h
  obtain ⟨found', rfl, hsorted', hmem'⟩ := h'
  refine ⟨found ++ found', List.map_append, ?_, fun k e => ?_⟩
  · refine List.pairwise_append.2 ⟨hsorted, hsorted', ?_⟩
    rintro ⟨k, e⟩ hfound ⟨k', e'⟩ hfound'
    exact hlt k e k' e' ((hmem k e).1 hfound) ((hmem' k' e').1 hfound')
  · rw [List.mem_append, hmem, hmem']

/-- If the places come in the order of some elements to which they belong, the lists for the
elements follow one another. -/
theorem flatMap {xs : List α} {f : α → List ε} {P : α → κ → ε → Prop}
    (h : ∀ x ∈ xs, ListsInOrder lt (P x) (f x))
    (hlt : xs.Pairwise fun x y => ∀ k e k' e', P x k e → P y k' e' → lt k k') :
    ListsInOrder lt (fun k e => ∃ x ∈ xs, P x k e) (xs.flatMap f) := by
  induction xs with
  | nil => exact .nil fun k e ⟨x, hx, _⟩ => nomatch hx
  | cons x xs ih =>
    obtain ⟨hx, hxs⟩ := List.forall_mem_cons.1 h
    obtain ⟨hfirst, hrest⟩ := List.pairwise_cons.1 hlt
    have happend := hx.append (ih hxs hrest) fun k e k' e' hP ⟨y, hy, hQ⟩ =>
      hfirst y hy k e k' e' hP hQ
    exact happend.congr fun k e => by rw [List.exists_mem_cons_iff]

/-- If the places come in the order of the indices to which they belong, the lists for the elements
follow one another. -/
theorem flatMap_zipIdx {xs : List α} {f : α → List ε} {P : Nat → α → κ → ε → Prop}
    (h : ∀ i x, ListsInOrder lt (P i x) (f x))
    (hlt : ∀ i j x y, i < j → ∀ k e k' e', P i x k e → P j y k' e' → lt k k') :
    ListsInOrder lt (fun k e => ∃ i x, xs[i]? = some x ∧ P i x k e) (xs.flatMap f) := by
  have hindices : xs.zipIdx.Pairwise fun p q => p.2 < q.2 := by
    rw [← List.pairwise_map (R := (· < ·)) (f := Prod.snd), List.zipIdx_map_snd]
    exact List.pairwise_lt_range' 1
  have hlists : ListsInOrder lt (fun k e => ∃ p ∈ xs.zipIdx, P p.2 p.1 k e)
      (xs.zipIdx.flatMap fun p => f p.1) :=
    flatMap (fun p _ => h p.2 p.1) (hindices.imp fun hij => hlt _ _ _ _ hij)
  have hflatMap : (xs.zipIdx.flatMap fun p => f p.1) = xs.flatMap f := by
    rw [← List.flatMap_map, List.zipIdx_map_fst]
  rw [hflatMap] at hlists
  refine hlists.congr fun k e => ?_
  simp only [Prod.exists, List.mem_zipIdx_iff_getElem?]
  exact exists_comm

/-- What is listed may be put under other places if these come in the same order. -/
theorem map {κ' : Type} {lt' : κ' → κ' → Prop} (h : ListsInOrder lt P es) (g : κ → κ')
    (hg : ∀ k k', lt k k' → lt' (g k) (g k')) :
    ListsInOrder lt' (fun k' e => ∃ k, g k = k' ∧ P k e) es := by
  obtain ⟨found, rfl, hsorted, hmem⟩ := h
  refine ⟨found.map fun p => (g p.1, p.2), ?_, ?_, fun k' e => ?_⟩
  · rw [List.map_map]
    rfl
  · exact List.pairwise_map.2 (hsorted.imp fun hlt => hg _ _ hlt)
  · simp only [List.mem_map, Prod.exists, Prod.mk.injEq]
    constructor
    · rintro ⟨k, e, hfound, rfl, rfl⟩
      exact ⟨k, rfl, (hmem k e).1 hfound⟩
    · rintro ⟨k, rfl, hP⟩
      exact ⟨k, e, (hmem k e).2 hP, rfl, rfl⟩

/-- Nothing is listed just if nothing is related to any place. -/
theorem eq_nil_iff (h : ListsInOrder lt P es) : es = [] ↔ ∀ k e, ¬ P k e := by
  obtain ⟨found, rfl, -, hmem⟩ := h
  rw [List.map_eq_nil_iff, List.eq_nil_iff_forall_not_mem]
  exact ⟨fun hnone k e hP => hnone _ ((hmem k e).2 hP),
    fun hnone p hp => hnone _ _ ((hmem _ _).1 hp)⟩

/-- If no two places come before each other, there is only one list. -/
theorem unique (hasymm : ∀ k k', lt k k' → ¬ lt k' k) (h : ListsInOrder lt P es)
    (h' : ListsInOrder lt P es') : es = es' := by
  obtain ⟨found, rfl, hsorted, hmem⟩ := h
  obtain ⟨found', rfl, hsorted', hmem'⟩ := h'
  have hnodup {found : List (κ × ε)} (hsorted : found.Pairwise fun a b => lt a.1 b.1) :
      found.Nodup := by
    refine List.Pairwise.imp (fun {a b} hlt heq => ?_) hsorted
    rw [heq] at hlt
    exact hasymm _ _ hlt hlt
  have hperm : found.Perm found' := (List.perm_ext_iff_of_nodup (hnodup hsorted)
    (hnodup hsorted')).2 fun p => (hmem p.1 p.2).trans (hmem' p.1 p.2).symm
  rw [hperm.eq_of_pairwise (fun a b _ _ hab hba => absurd hba (hasymm _ _ hab)) hsorted hsorted']

end ListsInOrder

end

end GraphQLCheck
