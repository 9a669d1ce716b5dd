import GraphQLCheck.Proofs.Document.Occurrences

/-!
# The arguments that nodes are given

Fields and directives are given arguments. They come first among the children of a node
(`Node.children_eq_arguments_append`), and nothing below an argument is given arguments itself
(`Node.givenArguments_of_mem_argument`).
-/

namespace GraphQLCheck

namespace Node

/-- The arguments that a node is given. -/
def givenArguments : Node → List Argument
  | field f => f.arguments
  | directive d => d.arguments
  | _ => []

/-- Whether a node is a value, or a field of one. -/
def isLiteral : Node → Bool
  | booleanValue _ | enumValue _ | floatValue _ | intValue _ | listValue _ | nullValue
  | objectField _ | objectValue _ | stringValue _ | .variable _ => true
  | _ => false

/-- The node of a value is a literal. -/
@[simp]
theorem isLiteral_ofValue (v : Value) : (ofValue v).isLiteral = true := by
  cases v <;> rfl

/-- Below a value there are only values. -/
theorem isLiteral_of_mem_children {n c : Node} (hn : n.isLiteral = true) (hc : c ∈ n.children) :
    c.isLiteral = true := by
  cases n with
  | listValue items => obtain ⟨v, -, rfl⟩ := List.mem_map.1 hc; exact isLiteral_ofValue v
  | objectField f => rw [List.mem_singleton.1 hc]; exact isLiteral_ofValue f.value
  | objectValue fields => obtain ⟨f, -, rfl⟩ := List.mem_map.1 hc; rfl
  | booleanValue _ | enumValue _ | floatValue _ | intValue _ | nullValue | stringValue _
  | «variable» _ => exact absurd hc List.not_mem_nil
  | _ => exact nomatch hn

/-- Everything below a value is a value. -/
theorem isLiteral_of_mem_subtree {v : Value} {m : Node} (hm : m ∈ (ofValue v).subtree) :
    m.isLiteral = true :=
  of_mem_subtree (P := fun n => n.isLiteral = true) (fun _ _ => isLiteral_of_mem_children)
    (isLiteral_ofValue v) hm

/-- An argument consists of itself and values. -/
theorem eq_or_isLiteral_of_mem_argument {a : Argument} {m : Node} (hm : m ∈ (argument a).subtree) :
    m = argument a ∨ m.isLiteral = true := by
  rw [subtree_eq, children, List.flatMap_singleton] at hm
  rcases List.mem_cons.1 hm with rfl | hm
  · exact .inl rfl
  · exact .inr (isLiteral_of_mem_subtree hm)

/-- Neither an argument nor anything below it is given arguments. -/
theorem givenArguments_of_mem_argument {a : Argument} {m : Node} (hm : m ∈ (argument a).subtree) :
    m.givenArguments = [] := by
  rcases eq_or_isLiteral_of_mem_argument hm with rfl | hliteral
  · rfl
  · cases m with
    | field _ | directive _ => exact nomatch hliteral
    | _ => rfl

/-- Whether a node is an argument or a directive, or part of a value. -/
def isGiven : Node → Bool
  | argument _ | directive _ => true
  | n => n.isLiteral

/-- Values are given. -/
theorem isGiven_of_isLiteral {n : Node} (h : n.isLiteral = true) : n.isGiven = true := by
  cases n <;> first | rfl | exact h

/-- Below what is given, everything is given. -/
theorem isGiven_of_mem_children {n c : Node} (hn : n.isGiven = true) (hc : c ∈ n.children) :
    c.isGiven = true := by
  cases n with
  | argument a =>
    rw [List.mem_singleton.1 hc]
    exact isGiven_of_isLiteral (isLiteral_ofValue a.value)
  | directive d => obtain ⟨a, -, rfl⟩ := List.mem_map.1 hc; rfl
  | _ =>
    refine isGiven_of_isLiteral (isLiteral_of_mem_children ?_ hc)
    exact hn

/-- The arguments of a node come first among its children. -/
theorem children_eq_arguments_append (n : Node) :
    ∃ others, n.children = n.givenArguments.map argument ++ others ∧
      ∀ c ∈ others, ∀ a, c ≠ argument a := by
  by_cases howner : (∃ f, n = field f) ∨ ∃ d, n = directive d
  · rcases howner with ⟨f, rfl⟩ | ⟨d, rfl⟩
    · refine ⟨f.directives.map directive ++ if f.selectionSet.items = [] then []
        else [selectionSet f.selectionSet], List.append_assoc _ _ _, fun c hc a => ?_⟩
      rcases List.mem_append.1 hc with hc | hc
      · obtain ⟨d, -, rfl⟩ := List.mem_map.1 hc
        exact nofun
      · split at hc
        · exact absurd hc List.not_mem_nil
        · rw [List.mem_singleton.1 hc]
          exact nofun
    · exact ⟨[], (List.append_nil _).symm, fun c hc => absurd hc List.not_mem_nil⟩
  · -- no other node is given arguments, or has some as children
    have hnone : n.givenArguments = [] := by
      cases n with
      | field f => exact absurd (.inl ⟨f, rfl⟩) howner
      | directive d => exact absurd (.inr ⟨d, rfl⟩) howner
      | _ => rfl
    refine ⟨n.children, by rw [hnone]; rfl, fun c hc a hargument => ?_⟩
    exact howner (field_or_directive_of_argument_mem (hargument ▸ hc))

end Node

end GraphQLCheck
