import GraphQLCheck.Proofs.Document.SortedFields
import GraphQLCheck.Proofs.Traversal.SyntaxTree
import Mathlib.Data.List.Nodup

/-!
# A walk covers the whole document exactly once

The nodes of a tree have addresses: which child of its parent a node is, then which child the parent
is of its own parent, and so on up to the root. `NodeTree.places` lists the nodes of a tree with
their addresses, parents before their children. `Walker.logged` does what a walker does and keeps a
log of the calls that it receives, with the addresses.

Main statement: a walker that never skips enters and leaves all nodes of the syntax tree of a
document, properly nested, and one that skips some nodes enters those that are not inside them and
leaves those of these that it does not skip (`Document.walk_covers`).
-/

namespace GraphQLCheck

/-! ## Addresses -/

/-- Where a node stands in a tree, the last step first. -/
abbrev Address := List Nat

namespace Address

/-- The address of the next node below the same parent. -/
def next : Address → Address
  | [] => []
  | i :: above => (i + 1) :: above

/-- Whether an ancestor of a node is chosen. -/
def below (chosen : Address → Bool) : Address → Bool
  | [] => false
  | _ :: above => chosen above || below chosen above

/-- If nothing is chosen, no node has a chosen ancestor. -/
theorem below_false (a : Address) : below (fun _ => false) a = false := by
  induction a with
  | nil => rfl
  | cons i above ih => rw [below, ih, Bool.or_false]

end Address

namespace NodeTree

mutual

/-- The nodes of a tree that stands at an address, each with its own address. -/
def places (a : Address) : NodeTree → List (Address × Node)
  | .mk n children => (a, n) :: placesIn a 0 children

/-- The nodes of trees below the address `a`, of which the first is child number `i`. -/
def placesIn (a : Address) (i : Nat) : List NodeTree → List (Address × Node)
  | [] => []
  | t :: ts => places (i :: a) t ++ placesIn a (i + 1) ts

end

end NodeTree

/-! ## Calls -/

/-- A call that a walker receives at an address. -/
inductive WalkCall where
  | enter (a : Address) (n : Node) (flow : WalkFlow)
  | leave (a : Address) (n : Node)

namespace WalkCall

/-- The node that is entered, if one is. -/
def entered? : WalkCall → Option (Address × Node)
  | enter a n _ => some (a, n)
  | leave _ _ => none

/-- The node that is left, if one is. -/
def left? : WalkCall → Option (Address × Node)
  | enter _ _ _ => none
  | leave a n => some (a, n)

/-- Whether calls are properly nested: between entering and leaving a node are only nested calls for
other nodes, and a node that is skipped is entered only. -/
inductive Nested : List WalkCall → Prop where
  | nil : Nested []
  | skipped {a : Address} {n : Node} {rest : List WalkCall} (hrest : Nested rest) :
      Nested (enter a n .skip :: rest)
  | around {a : Address} {n : Node} {inner rest : List WalkCall} (hinner : Nested inner)
      (hrest : Nested rest) : Nested (enter a n .descend :: (inner ++ leave a n :: rest))

/-- Nested calls may follow one another. -/
theorem Nested.append {calls calls' : List WalkCall} (h : Nested calls) (h' : Nested calls') :
    Nested (calls ++ calls') := by
  induction h with
  | nil => exact h'
  | skipped _ ih => exact .skipped ih
  | around hinner _ _ ih =>
    rw [List.cons_append, List.append_assoc, List.cons_append]
    exact .around hinner ih

end WalkCall

namespace NodeTree

open WalkCall Address

mutual

/-- The calls on a tree that stands at an address if the chosen nodes are skipped. -/
def calls (chosen : Address → Bool) (a : Address) : NodeTree → List WalkCall
  | .mk n children =>
    if chosen a then [.enter a n .skip]
    else .enter a n .descend :: (callsIn chosen a 0 children ++ [.leave a n])

/-- The calls on trees below an address, of which the first is child number `i`. -/
def callsIn (chosen : Address → Bool) (a : Address) (i : Nat) : List NodeTree → List WalkCall
  | [] => []
  | t :: ts => calls chosen (i :: a) t ++ callsIn chosen a (i + 1) ts

end

variable {chosen : Address → Bool}

mutual

/-- The calls on a tree are properly nested. -/
theorem nested_calls (a : Address) : ∀ t : NodeTree, Nested (t.calls chosen a)
  | .mk n children => by
    rw [calls]
    split
    · exact .skipped .nil
    · exact .around (nested_callsIn a 0 children) .nil

/-- So are those on trees next to one another. -/
theorem nested_callsIn (a : Address) (i : Nat) : ∀ ts : List NodeTree,
    Nested (callsIn chosen a i ts)
  | [] => .nil
  | t :: ts => (nested_calls (i :: a) t).append (nested_callsIn a (i + 1) ts)

end

mutual

/-- Nothing below a chosen node is kept. -/
theorem filter_places_of_below {a : Address} (h : below chosen a = true) : ∀ t : NodeTree,
    (t.places a).filter (fun p => !below chosen p.1) = []
  | .mk n children => by
    have ha : below chosen a = true ∨ chosen a = true := .inl h
    simp [places, h, filter_placesIn_of_below ha 0 children]

/-- Nor is anything in trees below a chosen node. -/
theorem filter_placesIn_of_below {a : Address} (h : below chosen a = true ∨ chosen a = true)
    (i : Nat) : ∀ ts : List NodeTree, (placesIn a i ts).filter (fun p => !below chosen p.1) = []
  | [] => rfl
  | t :: ts => by
    have hchild : below chosen (i :: a) = true := by
      rcases h with h | h <;> simp [below, h]
    rw [placesIn, List.filter_append, filter_places_of_below hchild t,
      filter_placesIn_of_below h (i + 1) ts, List.append_nil]

end

mutual

/-- The nodes that are entered are those without a chosen ancestor, in the same order. -/
theorem entered_calls {a : Address} (h : below chosen a = false) : ∀ t : NodeTree,
    (t.calls chosen a).filterMap entered? = (t.places a).filter fun p => !below chosen p.1
  | .mk n children => by
    rw [calls, places]
    split
    -- below a chosen node no other one is entered, and none is to be
    · next ha => simp [entered?, h, filter_placesIn_of_below (.inr ha) 0 children]
    · next ha =>
      have hchildren := entered_callsIn (i := 0) h (eq_false_of_ne_true ha) children
      simp [entered?, h, hchildren]

/-- The same for trees next to one another, below a node that is not chosen. -/
theorem entered_callsIn {a : Address} {i : Nat} (h : below chosen a = false)
    (ha : chosen a = false) : ∀ ts : List NodeTree,
    (callsIn chosen a i ts).filterMap entered? =
      (placesIn a i ts).filter fun p => !below chosen p.1
  | [] => rfl
  | t :: ts => by
    have hchild : below chosen (i :: a) = false := by simp [below, h, ha]
    rw [callsIn, placesIn, List.filterMap_append, List.filter_append, entered_calls hchild t,
      entered_callsIn h ha ts]

end

mutual

/-- The nodes that are left are those that are entered and not chosen. -/
theorem left_calls (chosen : Address → Bool) (a : Address) : ∀ t : NodeTree,
    ((t.calls chosen a).filterMap left?).Perm
      (((t.calls chosen a).filterMap entered?).filter fun p => !chosen p.1)
  | .mk n children => by
    rw [calls]
    split
    · next ha => simp [left?, entered?, ha]
    · next ha =>
      have hchildren := left_callsIn chosen a 0 children
      simp only [List.filterMap_cons, left?, entered?, List.filterMap_append, List.filterMap_nil,
        List.append_nil]
      rw [List.filter_cons_of_pos (by simpa using ha)]
      -- the node is entered before its children and left after them
      exact (hchildren.append_right _).trans List.perm_append_comm

/-- The same for trees next to one another. -/
theorem left_callsIn (chosen : Address → Bool) (a : Address) (i : Nat) : ∀ ts : List NodeTree,
    ((callsIn chosen a i ts).filterMap left?).Perm
      (((callsIn chosen a i ts).filterMap entered?).filter fun p => !chosen p.1)
  | [] => .nil
  | t :: ts => by
    rw [callsIn, List.filterMap_append, List.filterMap_append, List.filter_append]
    exact (left_calls chosen (i :: a) t).append (left_callsIn chosen a (i + 1) ts)

end

mutual

/-- The address of a tree is the end of all addresses in it. -/
theorem suffix_of_mem_places {a : Address} {p : Address × Node} : ∀ {t : NodeTree},
    p ∈ t.places a → a <:+ p.1
  | .mk n children, hp => by
    rw [places] at hp
    rcases List.mem_cons.mp hp with rfl | hp
    · exact List.suffix_refl a
    · obtain ⟨j, -, hsuffix⟩ := suffix_of_mem_placesIn hp
      exact (List.suffix_cons j a).trans hsuffix

/-- Before that end comes the number of a child, for trees below an address. -/
theorem suffix_of_mem_placesIn {a : Address} {i : Nat} {p : Address × Node} :
    ∀ {ts : List NodeTree}, p ∈ placesIn a i ts → ∃ j, i ≤ j ∧ (j :: a) <:+ p.1
  | t :: ts, hp => by
    rw [placesIn] at hp
    rcases List.mem_append.mp hp with hp | hp
    · exact ⟨i, Nat.le_refl i, suffix_of_mem_places hp⟩
    · obtain ⟨j, hj, hsuffix⟩ := suffix_of_mem_placesIn hp
      exact ⟨j, by omega, hsuffix⟩

end

mutual

/-- No two nodes of a tree have the same address. -/
theorem nodup_places (a : Address) : ∀ t : NodeTree, ((t.places a).map Prod.fst).Nodup
  | .mk n children => by
    rw [places, List.map_cons, List.nodup_cons]
    refine ⟨?_, nodup_placesIn a 0 children⟩
    intro ha
    obtain ⟨p, hp, hpa⟩ := List.mem_map.mp ha
    -- everything below the node has a longer address
    obtain ⟨j, -, hsuffix⟩ := suffix_of_mem_placesIn hp
    rw [hpa] at hsuffix
    exact absurd hsuffix.length_le (Nat.not_succ_le_self a.length)

/-- The addresses in trees next to one another are different as well. -/
theorem nodup_placesIn (a : Address) (i : Nat) : ∀ ts : List NodeTree,
    ((placesIn a i ts).map Prod.fst).Nodup
  | [] => .nil
  | t :: ts => by
    rw [placesIn, List.map_append]
    refine (nodup_places (i :: a) t).append (nodup_placesIn a (i + 1) ts) ?_
    intro b hb hb'
    obtain ⟨p, hp, rfl⟩ := List.mem_map.mp hb
    obtain ⟨q, hq, hqp⟩ := List.mem_map.mp hb'
    have hi := suffix_of_mem_places hp
    obtain ⟨j, hj, hsuffix⟩ := suffix_of_mem_placesIn hq
    rw [hqp] at hsuffix
    -- two ends of one list that are equally long are the same
    have hends := (List.suffix_of_suffix_length_le hi hsuffix (by simp)).eq_of_length (by simp)
    have hij : i = j := (List.cons.inj hends).1
    omega

end

end NodeTree

/-! ## Walks -/

/-- What is known of a walk so far: the address at which the next node will be entered, and the
calls. -/
structure Trail where
  here : Address
  calls : List WalkCall

namespace Trail

/-- The trail of a walk that has not begun. -/
def start : Trail := ⟨[], []⟩

/-- A node is entered, and its children come next unless it is skipped. -/
def enter (t : Trail) (n : Node) (flow : WalkFlow) : Trail :=
  let here :=
    match flow with
    | .descend => 0 :: t.here
    | .skip => t.here.next
  ⟨here, t.calls ++ [.enter t.here n flow]⟩

/-- The node above is left. -/
def leave (t : Trail) (n : Node) : Trail :=
  let above : Address := t.here.tail
  ⟨above.next, t.calls ++ [.leave above n]⟩

end Trail

variable {σ : Type}

namespace Walker

/-- The walker that does what `w` does and keeps a log of the calls. -/
def logged (w : Walker σ) : Walker (σ × Trail) where
  enter n isRoot s :=
    let (state, flow) := w.enter n isRoot s.1
    ((state, s.2.enter n flow), flow)
  leave n s := (w.leave n s.1, s.2.leave n)

/-- The calls that a walker receives on a walk over a node and everything below it. -/
def log (w : Walker σ) (n : Node) (s : σ) : List WalkCall :=
  (n.walk w.logged (s, .start)).2.calls

/-- The walker over trees that does what `w` does. -/
def onTree (w : Walker σ) : TreeWalker σ where
  enter ancestors n s := w.enter n ancestors.isEmpty s
  leave _ n s := w.leave n s

end Walker

namespace Node

/-- Walking over the children in turn is the walk over their trees, if it is so for each child. -/
theorem foldl_walkFrom_eq_walkAll {w : Walker σ} {ancestors : List Node} {cs : List Node}
    (h : ∀ c ∈ cs, ∀ s, c.walkFrom w false s = c.tree.walk w.onTree ancestors s) (s : σ) :
    cs.foldl (fun s c => c.walkFrom w false s) s =
      NodeTree.walkAll w.onTree ancestors (cs.map tree) s := by
  induction cs generalizing s with
  | nil => rfl
  | cons c cs ih =>
    obtain ⟨hc, hcs⟩ := List.forall_mem_cons.mp h
    rw [List.foldl_cons, List.map_cons, NodeTree.walkAll, hc, ih hcs]

/-- The walk over a node is the walk over its tree. -/
theorem walkFrom_eq_walk (w : Walker σ) (ancestors : List Node) (n : Node) (s : σ) :
    n.walkFrom w ancestors.isEmpty s = n.tree.walk w.onTree ancestors s := by
  -- the children are walked over in turn, with the node as their nearest ancestor
  have hchildren (s : σ) :
      (n.children.attach.foldl (fun s c => walkFrom w false c.1 s) s) =
        NodeTree.walkAll w.onTree (n :: ancestors) (n.children.map tree) s := by
    rw [← foldl_walkFrom_eq_walkAll fun c hc s => walkFrom_eq_walk w (n :: ancestors) c s]
    exact List.foldl_attach (f := fun s c => walkFrom w false c s)
  rw [walkFrom, tree_eq, NodeTree.walk]
  simp only [hchildren]
  rfl
termination_by sizeOf n
decreasing_by exact sizeOf_lt_of_mem_children hc

end Node

/-- Whether the nodes that are skipped by some calls are the chosen ones among those that are
entered. -/
def SkipsChosen (chosen : Address → Bool) (calls : List WalkCall) : Prop :=
  ∀ a n flow, .enter a n flow ∈ calls → (flow = .skip ↔ chosen a = true)

/-- What holds of all calls holds of the first ones. -/
theorem SkipsChosen.left {chosen : Address → Bool} {calls calls' : List WalkCall}
    (h : SkipsChosen chosen (calls ++ calls')) : SkipsChosen chosen calls :=
  fun a n flow hmem => h a n flow (List.mem_append_left _ hmem)

/-- It also holds of the last ones. -/
theorem SkipsChosen.right {chosen : Address → Bool} {calls calls' : List WalkCall}
    (h : SkipsChosen chosen (calls ++ calls')) : SkipsChosen chosen calls' :=
  fun a n flow hmem => h a n flow (List.mem_append_right _ hmem)

namespace NodeTree

section

variable {w : Walker σ} {ancestors : List Node} {n : Node} {children : List NodeTree}
  {s state : σ}

/-- The walk over a tree whose root is skipped enters the root only. -/
theorem walk_of_skip (h : w.enter n ancestors.isEmpty s = (state, .skip)) :
    (mk n children).walk w.onTree ancestors s = state := by
  simp only [walk, Walker.onTree, h]

/-- Otherwise the root is left after its children. -/
theorem walk_of_descend (h : w.enter n ancestors.isEmpty s = (state, .descend)) :
    (mk n children).walk w.onTree ancestors s =
      w.leave n (walkAll w.onTree (n :: ancestors) children state) := by
  simp only [walk, Walker.onTree, h]

/-- Entering a node is logged with what the walker does then. -/
theorem logged_enter {flow : WalkFlow} (h : w.enter n ancestors.isEmpty s = (state, flow))
    (trail : Trail) :
    w.logged.enter n ancestors.isEmpty (s, trail) = ((state, trail.enter n flow), flow) := by
  simp only [Walker.logged, h]

end

mutual

/-- A logged walk over a tree does what the walk does, and logs the calls on the tree. -/
theorem walk_logged (w : Walker σ) (ancestors : List Node) : ∀ (t : NodeTree) (s : σ)
    (trail : Trail), ∃ new,
      t.walk w.logged.onTree ancestors (s, trail) =
        (t.walk w.onTree ancestors s, ⟨trail.here.next, trail.calls ++ new⟩) ∧
      ∀ chosen, SkipsChosen chosen new → new = t.calls chosen trail.here
  | .mk n children, s, trail => by
    rcases henter : w.enter n ancestors.isEmpty s with ⟨state, flow⟩
    cases flow with
    | skip =>
      -- a skipped node is entered only, and its next sibling comes next
      refine ⟨[.enter trail.here n .skip], ?_, fun chosen hskips => ?_⟩
      · rw [walk_of_skip henter, walk_of_skip (logged_enter henter trail)]
        rfl
      · have hchosen := (hskips _ _ _ List.mem_cons_self).mp rfl
        rw [calls, if_pos hchosen]
    | descend =>
      -- the calls on the children stand between the calls for the node itself
      obtain ⟨inner, hwalk, hinner⟩ := walkAll_logged w (n :: ancestors) trail.here children state 0
        (trail.calls ++ [.enter trail.here n .descend])
      refine ⟨.enter trail.here n .descend :: (inner ++ [.leave trail.here n]), ?_,
        fun chosen hskips => ?_⟩
      · have hentered : trail.enter n .descend =
            ⟨0 :: trail.here, trail.calls ++ [.enter trail.here n .descend]⟩ := rfl
        rw [walk_of_descend henter, walk_of_descend (logged_enter henter trail), hentered, hwalk]
        simp [Walker.logged, Trail.leave]
      · have hchosen : ¬ chosen trail.here = true := fun h =>
          nomatch (hskips _ _ _ List.mem_cons_self).mpr h
        have hskips : SkipsChosen chosen (inner ++ [.leave trail.here n]) :=
          fun a m flow hmem => hskips a m flow (List.mem_cons_of_mem _ hmem)
        rw [calls, if_neg hchosen, ← hinner chosen hskips.left]

/-- The same for trees below the address `a`, of which the first is child number `i`. -/
theorem walkAll_logged (w : Walker σ) (ancestors : List Node) (a : Address) :
    ∀ (ts : List NodeTree) (s : σ) (i : Nat) (before : List WalkCall), ∃ new,
      walkAll w.logged.onTree ancestors ts (s, ⟨i :: a, before⟩) =
        (walkAll w.onTree ancestors ts s, ⟨(i + ts.length) :: a, before ++ new⟩) ∧
      ∀ chosen, SkipsChosen chosen new → new = callsIn chosen a i ts
  | [], s, i, before => ⟨[], by simp [walkAll], fun _ _ => rfl⟩
  | t :: ts, s, i, before => by
    obtain ⟨first, hfirst, hcalls⟩ := walk_logged w ancestors t s ⟨i :: a, before⟩
    obtain ⟨others, hothers, hcallsIn⟩ := walkAll_logged w ancestors a ts
      (t.walk w.onTree ancestors s) (i + 1) (before ++ first)
    refine ⟨first ++ others, ?_, fun chosen hskips => ?_⟩
    · rw [walkAll, hfirst, walkAll]
      simp only [Address.next, hothers, List.append_assoc, List.length_cons, Nat.add_assoc,
        Nat.add_comm 1]
    · rw [callsIn, ← hcalls chosen hskips.left, ← hcallsIn chosen hskips.right]

end

mutual

/-- What every call keeps of the state of a walker holds after a walk over a tree. -/
theorem walk_preserves {w : Walker σ} {P : σ → Prop}
    (henter : ∀ n isRoot s, P s → P (w.enter n isRoot s).1) (hleave : ∀ n s, P s → P (w.leave n s))
    (ancestors : List Node) : ∀ (t : NodeTree) (s : σ), P s → P (t.walk w.onTree ancestors s)
  | .mk n children, s, h => by
    have hentered := henter n ancestors.isEmpty s h
    rcases heq : w.enter n ancestors.isEmpty s with ⟨state, flow⟩
    rw [heq] at hentered
    cases flow with
    | skip =>
      rw [walk_of_skip heq]
      exact hentered
    | descend =>
      rw [walk_of_descend heq]
      exact hleave n _ (walkAll_preserves henter hleave (n :: ancestors) children state hentered)

/-- The same for trees next to one another. -/
theorem walkAll_preserves {w : Walker σ} {P : σ → Prop}
    (henter : ∀ n isRoot s, P s → P (w.enter n isRoot s).1) (hleave : ∀ n s, P s → P (w.leave n s))
    (ancestors : List Node) : ∀ (ts : List NodeTree) (s : σ), P s →
      P (walkAll w.onTree ancestors ts s)
  | [], _, h => h
  | t :: ts, s, h =>
    walkAll_preserves henter hleave ancestors ts _
      (walk_preserves henter hleave ancestors t s h)

end

end NodeTree

namespace Node

/-- The nodes of the trees of some nodes are these and everything below them, if it is so for each
of the nodes. -/
theorem map_placesIn_tree {cs : List Node} (h : ∀ c ∈ cs, ∀ a, (c.tree.places a).map Prod.snd =
    c.subtree) (a : Address) (i : Nat) :
    (NodeTree.placesIn a i (cs.map tree)).map Prod.snd = cs.flatMap subtree := by
  induction cs generalizing i with
  | nil => rfl
  | cons c cs ih =>
    obtain ⟨hc, hcs⟩ := List.forall_mem_cons.mp h
    rw [List.map_cons, NodeTree.placesIn, List.map_append, hc, ih hcs, List.flatMap_cons]

/-- The nodes of the tree of a node are the node and everything below it. -/
theorem map_places_tree (n : Node) (a : Address) : (n.tree.places a).map Prod.snd = n.subtree := by
  rw [tree_eq, NodeTree.places, List.map_cons, subtree_eq,
    map_placesIn_tree fun c hc a => map_places_tree c a]
termination_by sizeOf n
decreasing_by exact sizeOf_lt_of_mem_children hc

end Node

namespace Walker

/-- Keeping a log does not change what a walker does. -/
theorem walk_logged_fst (w : Walker σ) (n : Node) (s : σ) (trail : Trail) :
    (n.walk w.logged (s, trail)).1 = n.walk w s := by
  obtain ⟨new, hwalk, -⟩ := NodeTree.walk_logged w [] n.tree s trail
  have hlogged := n.walkFrom_eq_walk w.logged [] (s, trail)
  have hplain := n.walkFrom_eq_walk w [] s
  rw [hwalk] at hlogged
  exact (congrArg Prod.fst hlogged).trans hplain.symm

/-- If a walker skips the chosen nodes, its calls are those on the tree. -/
theorem log_eq_calls {w : Walker σ} {n : Node} {s : σ} {chosen : Address → Bool}
    (h : SkipsChosen chosen (w.log n s)) : w.log n s = n.tree.calls chosen [] := by
  obtain ⟨new, hwalk, hcalls⟩ := NodeTree.walk_logged w [] n.tree s .start
  have hlogged := n.walkFrom_eq_walk w.logged [] (s, .start)
  rw [hwalk] at hlogged
  have hlog : w.log n s = new := congrArg (fun p => p.2.calls) hlogged
  rw [hlog] at h ⊢
  exact hcalls chosen h

/-- A walker that skips the nodes at the chosen addresses. -/
def skipping (chosen : Address → Bool) : Walker Trail where
  enter n _ trail :=
    let flow := if chosen trail.here then .skip else .descend
    (trail.enter n flow, flow)
  leave n trail := trail.leave n

/-- Any nodes may be chosen to be skipped. -/
theorem skipsChosen_skipping (chosen : Address → Bool) (n : Node) :
    SkipsChosen chosen ((skipping chosen).log n .start) := by
  -- the walker keeps the same trail as the log
  have h := NodeTree.walk_preserves (w := (skipping chosen).logged)
    (P := fun s => s.1 = s.2 ∧ SkipsChosen chosen s.2.calls) ?enter ?leave [] n.tree
    (.start, .start) ⟨rfl, fun a n flow hmem => nomatch hmem⟩
  case enter =>
    rintro m isRoot ⟨trail, trail'⟩ ⟨htrail, hskips⟩
    obtain rfl : trail = trail' := htrail
    refine ⟨rfl, fun a m' flow hmem => ?_⟩
    rcases List.mem_append.mp hmem with hmem | hmem
    · exact hskips a m' flow hmem
    · obtain ⟨rfl, -, rfl⟩ := WalkCall.enter.inj (List.mem_singleton.mp hmem)
      split
      · next hchosen => simp [hchosen]
      · next hchosen => simp [hchosen]
  case leave =>
    rintro m ⟨trail, trail'⟩ ⟨htrail, hskips⟩
    obtain rfl : trail = trail' := htrail
    refine ⟨rfl, fun a m' flow hmem => ?_⟩
    rcases List.mem_append.mp hmem with hmem | hmem
    · exact hskips a m' flow hmem
    · exact nomatch List.mem_singleton.mp hmem
  rw [← Node.walkFrom_eq_walk] at h
  exact h.2

end Walker

/-! ## Walks over documents -/

/-- Whether calls cover a document of which the chosen nodes are skipped. -/
structure Covers (doc : Document) (chosen : Address → Bool) (calls : List WalkCall) : Prop where
  /-- The nodes of the syntax tree that are not inside a chosen one are entered, in order. -/
  entered : calls.filterMap WalkCall.entered? =
    (doc.syntaxTree.places []).filter fun p => !Address.below chosen p.1
  /-- Of these, the nodes that are not chosen are left, each of them once. -/
  left : (calls.filterMap WalkCall.left?).Perm
    ((doc.syntaxTree.places []).filter fun p => !Address.below chosen p.1 && !chosen p.1)
  /-- A node is left after everything inside it. -/
  nested : WalkCall.Nested calls

namespace Walker

/-- A walker that skips some nodes covers the document up to these. -/
theorem covers_of_skips {w : Walker σ} {s : σ} {doc : Document} {chosen : Address → Bool}
    (h : SkipsChosen chosen (w.log (.document doc) s)) :
    Covers doc chosen (w.log (.document doc) s) := by
  rw [log_eq_calls h, Node.tree_document]
  have hroot : Address.below chosen [] = false := rfl
  have hentered := NodeTree.entered_calls hroot doc.syntaxTree
  refine ⟨hentered, ?_, NodeTree.nested_calls [] doc.syntaxTree⟩
  have hleft := NodeTree.left_calls chosen [] doc.syntaxTree
  rw [hentered, List.filter_filter] at hleft
  simpa only [Bool.and_comm] using hleft

end Walker

/-- A walk over a document that has been read covers it exactly once. Its syntax tree gives every
node an address of its own and has the fields of objects in order; a walker that never skips enters
and leaves every node of it, and one that skips some nodes those that it is to. -/
theorem Document.walk_covers {text : String} {doc : Document} (hdoc : read text = .ok doc)
    (w : Walker σ) (s : σ) :
    let places := doc.syntaxTree.places []
    let calls := w.log (.document doc) s
    (places.map Prod.fst).Nodup ∧ (∀ p ∈ places, p.2.FieldsInOrder) ∧
      ((∀ a n, .enter a n .skip ∉ calls) → calls.filterMap WalkCall.entered? = places ∧
        (calls.filterMap WalkCall.left?).Perm places ∧ WalkCall.Nested calls) ∧
      (∀ chosen, SkipsChosen chosen calls → Covers doc chosen calls) ∧
      ((Node.document doc).walk w.logged (s, .start)).1 = (Node.document doc).walk w s := by
  intro places calls
  refine ⟨NodeTree.nodup_places [] doc.syntaxTree, ?sorted, ?never, ?skipping, ?same⟩
  case sorted =>
    intro p hp
    apply Document.sorted_of_read hdoc
    rw [← Node.map_places_tree _ [], Node.tree_document]
    exact List.mem_map_of_mem hp
  case never =>
    intro hnever
    -- to skip nothing is to skip what is chosen if nothing is
    have hskips : SkipsChosen (fun _ => false) calls := by
      rintro a n flow hmem
      cases flow with
      | descend => simp
      | skip => exact absurd hmem (hnever a n)
    have hcovers := Walker.covers_of_skips hskips
    have hall : (doc.syntaxTree.places []).filter (fun p => !Address.below (fun _ => false) p.1) =
        doc.syntaxTree.places [] := by
      simp [Address.below_false]
    refine ⟨hcovers.entered.trans hall, ?_, hcovers.nested⟩
    have hleft := hcovers.left
    simp only [Bool.not_false, Bool.and_true, hall] at hleft
    exact hleft
  case skipping => exact fun chosen hskips => Walker.covers_of_skips hskips
  case same => exact w.walk_logged_fst _ s .start

/-- A list of two items is skipped: of the twelve nodes, the items are not entered, and the list is
not left either. -/
theorem Document.walk_covers_skipping :
    ∃ doc, read "\x7b user(id: 4, tags: [1, 1]) \x7b name \x7d \x7d" = .ok doc ∧
      let calls := (Walker.skipping (· = [0, 1, 0, 0, 0])).log (.document doc) .start
      (doc.syntaxTree.places []).length = 12 ∧ (calls.filterMap WalkCall.entered?).length = 10 ∧
        (calls.filterMap WalkCall.left?).length = 9 := by
  let chosen (a : Address) : Bool := a = [0, 1, 0, 0, 0]
  obtain ⟨doc, hdoc, hcount⟩ := exists_of_any_toOption
    (x := read "\x7b user(id: 4, tags: [1, 1]) \x7b name \x7d \x7d")
    (p := fun doc =>
      let places := doc.syntaxTree.places []
      let entered := places.filter fun p => !Address.below chosen p.1
      let left := places.filter fun p => !Address.below chosen p.1 && !chosen p.1
      places.length = 12 ∧ entered.length = 10 ∧ left.length = 9)
    (by decide +kernel)
  obtain ⟨hplaces, hentered, hleft⟩ := of_decide_eq_true hcount
  obtain ⟨-, -, -, hcovers, -⟩ := walk_covers hdoc (Walker.skipping chosen) .start
  have h := hcovers chosen (Walker.skipsChosen_skipping chosen (.document doc))
  exact ⟨doc, hdoc, hplaces, h.entered ▸ hentered, h.left.length_eq.trans hleft⟩

end GraphQLCheck
