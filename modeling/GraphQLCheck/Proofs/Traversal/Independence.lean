import GraphQLCheck.Proofs.Traversal.TypesInEffect

/-!
# Rules do not interfere

The rules of a list have their walks one after the other, and what they share is handed on from walk
to walk: the types in effect with which the walk before has ended. Memories are set up before the
first walk, and the fragment that a name stands for depends on the document alone.

`Rule.outcome` is what a rule finds by itself, in a walk that begins with no types in effect.
Whatever rules are run before it, a rule finds just this (`runRules_eq_map`).

Main statement: what is found by some rules and then some others is what the ones find, followed by
what the others find (`validateWithRules_append`).
-/

namespace GraphQLCheck

/-- What a rule finds by itself, in a walk that begins with no types in effect. -/
def Rule.outcome (rule : Rule) (s : Schema) (doc : Document) : Outcome :=
  let p := visit rule.visitor s doc [] [] true (.document doc)
    ⟨.empty, rule.start ⟨s, doc, .empty, [], []⟩, []⟩
  ⟨rule.name, p.errors, rule.notes p.memory⟩

namespace Schema

/-- The rules behind a rule find what they would find without it. -/
theorem runRules_cons (s : Schema) (doc : Document) (rule : Rule) (rules : List Rule) :
    s.runRules doc (rule :: rules) = rule.outcome s doc :: s.runRules doc rules := by
  let ctx : Context := ⟨s, doc, .empty, [], []⟩
  let p := visit rule.visitor s doc [] [] true (.document doc) ⟨.empty, rule.start ctx, []⟩
  -- the walks behind the first one begin with the types that this one ends with
  have htypes : p.types = .empty := visit_types ..
  calc s.runRules doc (rule :: rules)
    _ = rule.outcome s doc ::
          s.runFrom doc p.types (rules.map fun rule => ⟨rule, rule.start ctx⟩) := rfl
    _ = rule.outcome s doc :: s.runRules doc rules := by rw [htypes]; rfl

/-- Each rule finds what it finds by itself. -/
theorem runRules_eq_map (s : Schema) (doc : Document) (rules : List Rule) :
    s.runRules doc rules = rules.map fun rule => rule.outcome s doc := by
  induction rules with
  | nil => rfl
  | cons rule rules ih => rw [runRules_cons, ih, List.map_cons]

/-- What some rules find wrong is what each of them finds by itself. -/
theorem validateWithRules_eq_flatMap (s : Schema) (doc : Document) (rules : List Rule) :
    s.validateWithRules doc rules = rules.flatMap fun rule => (rule.outcome s doc).errors := by
  rw [validateWithRules, runRules_eq_map, List.flatMap_map]

/-- Some rules and then some others find what the ones find, and then what the others find: the same
errors with the same messages, nodes and locations, in the same order. In either case these are the
errors that each rule finds by itself, whatever the visitors of the rules before it have done. -/
theorem validateWithRules_append (s : Schema) (doc : Document) (before after : List Rule) :
    s.runRules doc (before ++ after) = s.runRules doc before ++ s.runRules doc after ∧
      s.validateWithRules doc (before ++ after) =
        s.validateWithRules doc before ++ s.validateWithRules doc after ∧
      ∀ rules, s.validateWithRules doc rules =
        rules.flatMap fun rule => (rule.outcome s doc).errors := by
  have hruns : s.runRules doc (before ++ after) =
      s.runRules doc before ++ s.runRules doc after := by
    simp only [runRules_eq_map, List.map_append]
  refine ⟨hruns, ?_, fun rules => ?_⟩
  · unfold validateWithRules
    rw [hruns, List.flatMap_append]
  · unfold validateWithRules
    rw [runRules_eq_map, List.flatMap_map]

end Schema

end GraphQLCheck
