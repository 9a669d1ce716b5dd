import GraphQLCheck.Proofs.Rules.UndefinedVariables
import GraphQLCheck.Proofs.Traversal.Locations

/-!
# Every error of the specified rules has one place

The errors that the specified rules return name at most one node that has a place, and none of them
is returned at the document itself, so there is a definition around each of them, which has a
place.

Main statement: the errors of rules are located at their own nodes, or else at the nearest node
around them that has a place, and every error of a validation has just one place
(`errors_located`).
-/

namespace GraphQLCheck

/-- Whether an error that is returned at a node is located at its nodes, of which at most one has a
place, and the node is not the document. -/
structure ValidationError.IsSingle (n : Node) (e : ValidationError) : Prop where
  ofNodes : e.IsOfNodes
  places : (e.nodes.filterMap Node.position?).length ≤ 1
  inside : ∀ doc, n ≠ .document doc

/-- The visitor of a check reports what the check finds. -/
theorem Visitor.reports_ofCheck {C : Node → ValidationError → Prop}
    {check : Context → Node → List ValidationError} (h : ∀ ctx n, ∀ e ∈ check ctx n, C n e) :
    (Visitor.ofCheck check).Reports C := by
  refine ⟨fun ctx n m e he => h ctx n e ?_, fun _ _ _ e he => absurd he List.not_mem_nil⟩
  simp only [Visitor.ofCheck] at he
  split at he
  next => exact absurd he List.not_mem_nil
  next => exact he

/-- Errors come with a report. -/
theorem Response.exists_report_of_mem_errors {response : Response} {e : ValidationError}
    (h : e ∈ response.errors) : ∃ errors, response = .report errors ∧ e ∈ errors := by
  cases response with
  | report errors => exact ⟨errors, rfl, h⟩
  | proceed | skip => exact absurd h List.not_mem_nil

namespace Rules

/-- Types that are not known are reported one by one. -/
theorem knownTypeNames_single : knownTypeNames.visitor.Reports fun n e => e.IsSingle n := by
  apply Visitor.reports_ofCheck
  intro ctx n e he
  split at he
  next name =>
    split at he
    · obtain rfl := List.mem_singleton.1 he
      exact ⟨rfl, Nat.zero_le 1, nofun⟩
    · exact absurd he List.not_mem_nil
  next => exact absurd he List.not_mem_nil

/-- Variables that are not of input types are reported by the type alone. -/
theorem variablesAreInputTypes_single :
    variablesAreInputTypes.visitor.Reports fun n e => e.IsSingle n := by
  apply Visitor.reports_ofCheck
  intro ctx n e he
  have hplace (t : TypeExpr) : (Node.ofType t).position? = none := by cases t <;> rfl
  split at he
  next d =>
    split at he
    next type hd =>
      split at he
      · exact absurd he List.not_mem_nil
      · obtain rfl := List.mem_singleton.1 he
        refine ⟨rfl, ?_, nofun⟩
        simp [ValidationError.ofNodes, hplace]
    next => exact absurd he List.not_mem_nil
  next => exact absurd he List.not_mem_nil

/-- Fields that are not defined are reported one by one. -/
theorem fieldsOnCorrectType_single :
    fieldsOnCorrectType.visitor.Reports fun n e => e.IsSingle n := by
  apply Visitor.reports_ofCheck
  intro ctx n e he
  split at he
  next f =>
    split at he
    · obtain rfl := List.mem_singleton.1 he
      exact ⟨rfl, Nat.le_refl 1, fun doc hdoc => by cases hdoc⟩
    · exact absurd he List.not_mem_nil
  next => exact absurd he List.not_mem_nil

/-- Fragments that are not defined are reported one by one. -/
theorem knownFragmentNames_single : knownFragmentNames.visitor.Reports fun n e => e.IsSingle n := by
  apply Visitor.reports_ofCheck
  intro ctx n e he
  split at he
  next spread =>
    split at he
    · obtain rfl := List.mem_singleton.1 he
      exact ⟨rfl, Nat.le_refl 1, fun doc hdoc => by cases hdoc⟩
    · exact absurd he List.not_mem_nil
  next => exact absurd he List.not_mem_nil

/-- A variable that is not defined has no place, and an operation that is at fault has one. -/
theorem noUndefinedVariables_single :
    noUndefinedVariables.visitor.Reports fun n e => e.IsSingle n := by
  refine ⟨fun ctx n m e hreported => ?_, fun _ _ _ e he => absurd he List.not_mem_nil⟩
  obtain ⟨errors, hreport, he⟩ := Response.exists_report_of_mem_errors hreported
  have henter : NoUndefinedVariables.enter n m = (_, .report errors) := Prod.ext rfl hreport
  obtain ⟨name, rfl, -, -, rfl⟩ := NoUndefinedVariables.eq_variable_of_enter henter
  obtain rfl := List.mem_singleton.1 he
  unfold NoUndefinedVariables.error
  split
  next operation =>
    split
    · split
      · exact ⟨rfl, Nat.le_refl 1, nofun⟩
      · exact ⟨rfl, Nat.zero_le 1, nofun⟩
    · exact ⟨rfl, Nat.zero_le 1, nofun⟩
  next => exact ⟨rfl, Nat.zero_le 1, nofun⟩

/-- What is reported about an argument that is not defined names the argument alone. -/
theorem KnownArgumentNames.exists_message_of_mem_errors {types : TypeState} {owners : List Node}
    {a : Argument} {e : ValidationError} (h : e ∈ errors types owners a) :
    ∃ message, e = .ofNodes message [.argument a] := by
  cases owners with
  | nil => exact absurd h List.not_mem_nil
  | cons owner owners =>
    cases owner with
    | directive d =>
      simp only [errors] at h
      split at h
      · exact ⟨_, List.mem_singleton.1 h⟩
      · exact absurd h List.not_mem_nil
    | field f =>
      simp only [errors] at h
      split at h
      · exact ⟨_, List.mem_singleton.1 h⟩
      · exact absurd h List.not_mem_nil
    | _ => exact absurd h List.not_mem_nil

/-- Arguments that are not defined are reported one by one. -/
theorem knownArgumentNames_single : knownArgumentNames.visitor.Reports fun n e => e.IsSingle n := by
  refine ⟨fun ctx n owners e hreported => ?_, fun _ _ _ e he => absurd he List.not_mem_nil⟩
  obtain ⟨errors, hreport, he⟩ := Response.exists_report_of_mem_errors hreported
  have henter : (KnownArgumentNames.enter ctx n owners).2 = .report errors := hreport
  cases n with
  | argument a =>
    have herrors : errors = KnownArgumentNames.errors ctx.types owners a := by
      simp only [KnownArgumentNames.enter] at henter
      split at henter
      · split at henter
        · cases henter
        · exact (Response.report.inj henter).symm
      · cases henter
    rw [herrors] at he
    obtain ⟨message, rfl⟩ := KnownArgumentNames.exists_message_of_mem_errors he
    exact ⟨rfl, Nat.zero_le 1, fun doc hdoc => by cases hdoc⟩
  | _ => cases henter

/-- Arguments that are given again are reported together with the first ones, and neither has a
place. -/
theorem uniqueArgumentNames_single :
    uniqueArgumentNames.visitor.Reports fun n e => e.IsSingle n := by
  refine ⟨fun ctx n seen e hreported => ?_, fun _ _ _ e he => absurd he List.not_mem_nil⟩
  obtain ⟨errors, hreport, he⟩ := Response.exists_report_of_mem_errors hreported
  have henter : (UniqueArgumentNames.enter n seen).2 = .report errors := hreport
  cases n with
  | argument a =>
    simp only [UniqueArgumentNames.enter] at henter
    split at henter
    next first hfirst =>
      rw [← Response.report.inj henter] at he
      obtain rfl := List.mem_singleton.1 he
      exact ⟨rfl, Nat.zero_le 1, nofun⟩
    next => exact nomatch henter
  | _ => exact nomatch henter

end Rules

/-- The specified rules report errors with at most one place each. -/
theorem specifiedRules_single {rule : Rule} (hrule : rule ∈ specifiedRules) :
    rule.visitor.Reports fun n e => e.IsSingle n := by
  simp only [specifiedRules, List.mem_cons, List.not_mem_nil, or_false] at hrule
  rcases hrule with rfl | rfl | rfl | rfl | rfl | rfl | rfl
  · exact Rules.knownTypeNames_single
  · exact Rules.variablesAreInputTypes_single
  · exact Rules.fieldsOnCorrectType_single
  · exact Rules.knownFragmentNames_single
  · exact Rules.noUndefinedVariables_single
  · exact Rules.knownArgumentNames_single
  · exact Rules.uniqueArgumentNames_single

/-- Definitions have places. -/
theorem Node.exists_position?_of_mem_document {doc : Document} {n : Node}
    (h : n ∈ (document doc).children) : ∃ place, n.position? = some place := by
  obtain ⟨d, -, rfl⟩ := List.mem_map.1 h
  cases d with
  | operation d => exact ⟨d.position, rfl⟩
  | fragment d => exact ⟨d.position, rfl⟩

/-- On a way from the document to another node there is a node with a place. -/
theorem Way.exists_position? {doc : Document} {chain : List Node} {n : Node}
    (hway : Way doc [] (n :: chain)) (hn : ∀ doc', n ≠ .document doc') :
    ∃ m ∈ n :: chain, ∃ place, m.position? = some place := by
  induction chain generalizing n with
  | nil =>
    obtain ⟨-, hfollows⟩ := hway.of_cons
    cases hfollows with
    | document => exact absurd rfl (hn doc)
  | cons m chain ih =>
    obtain ⟨hway, hfollows⟩ := hway.of_cons
    by_cases hm : ∀ doc', m ≠ .document doc'
    · obtain ⟨k, hk, hplace⟩ := ih hway hm
      exact ⟨k, List.mem_cons_of_mem n hk, hplace⟩
    · -- the node is a definition
      obtain ⟨doc', rfl⟩ := not_forall_not.1 hm
      cases hfollows with
      | child hc => exact ⟨n, List.mem_cons_self, Node.exists_position?_of_mem_document hc⟩

/-- An error that names at most one node with a place, and is returned inside the document, is
recorded at one place. -/
theorem ValidationError.IsLocated.exists_place {doc : Document} {r : ReturnedError}
    {e : ValidationError} (h : e.IsLocated r) {n : Node} {rest : List Node}
    (hpath : r.path = n :: rest) (hway : Way doc [] (n :: rest)) (hsingle : r.error.IsSingle n) :
    ∃ place, e.locations = [place] := by
  by_cases hown : r.error.nodes.filterMap Node.position? = []
  · rcases h.nearest hown with ⟨-, m, -, place, -, -, -, hlocations⟩ | ⟨hnone, -⟩
    · exact ⟨place, hlocations⟩
    · -- there is a definition on the way
      obtain ⟨m, hm, place, hplace⟩ := hway.exists_position? hsingle.inside
      exact absurd ((hnone m (hpath ▸ hm)).symm.trans hplace) (by simp)
  · have hlength : (r.error.nodes.filterMap Node.position?).length = 1 :=
      Nat.le_antisymm hsingle.places (List.length_pos_iff.2 hown)
    obtain ⟨place, hplace⟩ := List.length_eq_one_iff.1 hlength
    exact ⟨place, (h.own hown).trans hplace⟩

/-- A rule whose errors have at most one place each records all of them at one place. -/
theorem Rule.exists_place {rule : Rule} (hrule : rule.visitor.Reports fun n e => e.IsSingle n)
    {s : Schema} {doc : Document} {e : ValidationError} (he : e ∈ (rule.outcome s doc).errors) :
    ∃ place, e.locations = [place] := by
  obtain ⟨hrecording, herrors⟩ := Rule.recording_events hrule s doc
  rw [herrors] at he
  obtain ⟨r, hr, rfl⟩ := List.mem_map.1 he
  obtain ⟨n, rest, hpath, hway, hsingle⟩ := hrecording.way_of_mem .here hr
  exact (r.isLocated_located hsingle.ofNodes).exists_place hpath hway hsingle

/-- Whatever the schema, the document and the rules are, what is found wrong are just the errors
that the visitors of the rules return, in order, each of them located at its own nodes that have a
place, if there are any, and else at the first node that has one on the path from the node at which
it is returned up to the document, the spread coming after the definition of a fragment that is
visited there. Nothing but the places of the nodes that are being visited is needed for that. Every
error that the specified rules find has just one place. -/
theorem errors_located (s : Schema) (doc : Document) (rules : List Rule)
    (hrules : ∀ rule ∈ rules, rule.visitor.Reports fun _ e => e.IsOfNodes) :
    List.Forall₂ (fun r e => e.IsLocated r) (rules.flatMap fun rule => rule.returned s doc)
        (s.validateWithRules doc rules) ∧
      (∀ rule ∈ rules, ∀ r ∈ rule.returned s doc, Way doc [] r.path) ∧
      s.validateWithRules doc rules = rules.flatMap (fun rule => locateAll [] (rule.events s doc)) ∧
      ∀ e ∈ s.validate doc, ∃ place, e.locations = [place] := by
  refine ⟨?_, ?_, ?_, ?_⟩
  · rw [s.validateWithRules_eq_flatMap]
    induction rules with
    | nil => exact .nil
    | cons rule rules ih =>
      obtain ⟨hrule, hrules⟩ := List.forall_mem_cons.1 hrules
      exact List.rel_append (rule.forall₂_isLocated hrule s doc) (ih hrules)
  · intro rule hrule r hr
    obtain ⟨hrecording, -⟩ := Rule.recording_events (hrules rule hrule) s doc
    obtain ⟨n, rest, hpath, hway, -⟩ := hrecording.way_of_mem .here hr
    rw [hpath]
    exact hway
  · rw [s.validateWithRules_eq_flatMap]
    simp only [Rule.errors_eq_locateAll]
  · intro e he
    rw [Schema.validate, s.validateWithRules_eq_flatMap] at he
    obtain ⟨rule, hrule, he⟩ := List.mem_flatMap.1 he
    exact Rule.exists_place (specifiedRules_single hrule) he

/-- The errors that the specified rules find in two operations that share fragments are those that
their visitors return, located at the nearest places. -/
theorem errors_located_sharedCycle :
    let s : Schema := ⟨.empty, .empty, ⟨"Query", .builtIn⟩, none, none⟩
    let doc := Rules.NoUndefinedVariables.sharedCycle
    (∀ rule ∈ specifiedRules, rule.visitor.Reports fun _ e => e.IsOfNodes) ∧
      List.Forall₂ (fun r e => e.IsLocated r)
        (specifiedRules.flatMap fun rule => rule.returned s doc) (s.validate doc) := by
  intro s doc
  have hrules : ∀ rule ∈ specifiedRules, rule.visitor.Reports fun _ e => e.IsOfNodes := by
    intro rule hrule
    obtain ⟨henter, hleave⟩ := specifiedRules_single hrule
    exact ⟨fun ctx n m e he => (henter ctx n m e he).ofNodes,
      fun ctx n m e he => (hleave ctx n m e he).ofNodes⟩
  obtain ⟨hlocated, -⟩ := errors_located s doc specifiedRules hrules
  exact ⟨hrules, hlocated⟩

end GraphQLCheck
