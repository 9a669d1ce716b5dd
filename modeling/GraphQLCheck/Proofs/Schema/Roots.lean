import GraphQLCheck.Proofs.Schema.Written
import Mathlib.Data.List.Nodup

/-!
# Which roots a builder holds

`RootsHeld` says that a builder holds the roots that schema blocks declare, where no kind of
operation has two.

Main statements: the roots that a schema block names can be declared just if no kind has two then
(`RootsHeld.foldlM_declareNamedRoot`, `RootsHeld.exists_foldlM_declareNamedRoot`), and the builder's
checks pass just if no two roots are the same type (`RootsHeld.nodup_types_iff`).
-/

namespace GraphQLCheck

/-- Whether a builder holds just the roots that are declared, each kind of operation once. -/
structure RootsHeld (rs : List (OperationKind × RootDeclaration)) (b : Builder) : Prop where
  once : (rs.map Prod.fst).Nodup
  declared : ∀ kind r, b.root? kind = some r ↔ (kind, r) ∈ rs

/-- Whether two builders hold the same, roots apart. -/
structure SameButRoots (b b' : Builder) : Prop where
  types : b'.types = b.types
  directives : b'.directives = b.directives
  pending : b'.pending = b.pending

namespace SameButRoots

/-- A builder holds the same as itself. -/
theorem refl (b : Builder) : SameButRoots b b := ⟨rfl, rfl, rfl⟩

/-- What is the same stays the same. -/
theorem trans {b b' b'' : Builder} (h : SameButRoots b b') (h' : SameButRoots b' b'') :
    SameButRoots b b'' :=
  ⟨h'.types.trans h.types, h'.directives.trans h.directives, h'.pending.trans h.pending⟩

end SameButRoots

/-- Declaring the root that is named does nothing if none is, and else sets the root of a kind that
has none. -/
theorem Builder.of_declareNamedRoot {b b' : Builder} {location : SourceLocation}
    {kind : OperationKind} {type : Option String}
    (hok : b.declareNamedRoot location (kind, type) = .ok b') :
    type = none ∧ b' = b ∨
      ∃ name, type = some name ∧ b.root? kind = none ∧ b' = b.setRoot kind ⟨name, location⟩ := by
  cases type with
  | none => exact .inl ⟨rfl, (Except.ok.inj hok).symm⟩
  | some name =>
    rw [declareNamedRoot] at hok
    simp only [declareRoot] at hok
    cases hget : b.root? kind with
    | some r => rw [hget] at hok; exact nomatch hok
    | none =>
      rw [hget] at hok
      exact .inr ⟨name, rfl, rfl, (Except.ok.inj hok).symm⟩

namespace RootsHeld

variable {rs : List (OperationKind × RootDeclaration)} {b b' : Builder}

/-- Setting the root of a kind of operation sets no other root. -/
theorem root?_setRoot (b : Builder) (kind kind' : OperationKind) (r : RootDeclaration) :
    (b.setRoot kind r).root? kind' = if kind' = kind then some r else b.root? kind' := by
  cases kind <;> cases kind' <;> rfl

/-- Setting a root changes nothing but roots. -/
theorem sameButRoots_setRoot (b : Builder) (kind : OperationKind) (r : RootDeclaration) :
    SameButRoots b (b.setRoot kind r) := by
  cases kind <;> exact ⟨rfl, rfl, rfl⟩

/-- A kind has no root if none has been declared for it. -/
theorem root?_eq_none_iff (h : RootsHeld rs b) (kind : OperationKind) :
    b.root? kind = none ↔ kind ∉ rs.map Prod.fst := by
  rw [Option.eq_none_iff_forall_ne_some]
  constructor
  · rintro hget hmem
    obtain ⟨⟨kind', r⟩, hr, rfl⟩ := List.mem_map.1 hmem
    exact hget r ((h.declared kind' r).2 hr)
  · exact fun hmem r hr => hmem (List.mem_map.2 ⟨_, (h.declared kind r).1 hr, rfl⟩)

/-- What a builder holds after the root of a kind without a root has been set. -/
theorem setRoot (h : RootsHeld rs b) {kind : OperationKind} (r : RootDeclaration)
    (hnone : b.root? kind = none) : RootsHeld (rs ++ [(kind, r)]) (b.setRoot kind r) := by
  refine ⟨?_, fun kind' r' => ?_⟩
  · rw [List.map_append]
    refine List.nodup_append.2 ⟨h.once, List.pairwise_singleton _ _, ?_⟩
    intro kind' hkind' kind'' hkind'' heq
    obtain rfl : kind'' = kind := List.mem_singleton.1 hkind''
    exact (h.root?_eq_none_iff kind'').1 hnone (heq ▸ hkind')
  · rw [root?_setRoot, List.mem_append, List.mem_singleton, Prod.mk.injEq]
    by_cases hkind : kind' = kind
    · rw [if_pos hkind, hkind, ← h.declared, hnone]
      exact ⟨fun hr => .inr ⟨rfl, (Option.some.inj hr).symm⟩,
        fun hr => by rw [(hr.resolve_left fun hr => nomatch hr).2]⟩
    · rw [if_neg hkind, h.declared]
      exact ⟨.inl, fun hr => hr.resolve_right fun hr => hkind hr.1⟩

/-- Declaring the root that is named, if one is, adds it to those that are held. -/
theorem declareNamedRoot (h : RootsHeld rs b) {location : SourceLocation}
    {entry : OperationKind × Option String} (hok : b.declareNamedRoot location entry = .ok b') :
    SameButRoots b b' ∧ RootsHeld (rs ++ namedRoot location entry) b' := by
  obtain ⟨kind, type⟩ := entry
  rcases Builder.of_declareNamedRoot hok with ⟨rfl, rfl⟩ | ⟨name, rfl, hnone, rfl⟩
  · exact ⟨.refl b', (List.append_nil rs).symm ▸ h⟩
  · exact ⟨sameButRoots_setRoot b kind _, h.setRoot _ hnone⟩

/-- The root that is named can be declared if its kind has none yet. -/
theorem exists_declareNamedRoot (h : RootsHeld rs b) {location : SourceLocation}
    {entry : OperationKind × Option String}
    (honce : ((rs ++ namedRoot location entry).map Prod.fst).Nodup) :
    ∃ b', b.declareNamedRoot location entry = .ok b' := by
  obtain ⟨kind, type | type⟩ := entry
  · exact ⟨b, rfl⟩
  · rw [List.map_append] at honce
    have hget : b.root? kind = none := (h.root?_eq_none_iff kind).2 fun hmem =>
      (List.nodup_append.1 honce).2.2 kind hmem kind (List.mem_singleton.2 rfl) rfl
    refine ⟨b.setRoot kind ⟨type, location⟩, ?_⟩
    show b.declareRoot kind ⟨type, location⟩ = _
    rw [Builder.declareRoot, hget]

/-- Whether some named roots have been declared, and nothing else has been done. -/
private def Declared (rs : List (OperationKind × RootDeclaration)) (b : Builder)
    (location : SourceLocation) (entries : List (OperationKind × Option String)) (b' : Builder) :
    Prop :=
  SameButRoots b b' ∧ RootsHeld (rs ++ entries.flatMap (namedRoot location)) b'

/-- A further entry declares the root that it names. -/
private theorem declared_step {location : SourceLocation}
    {entries : List (OperationKind × Option String)} {b₁ b₂ : Builder}
    {entry : OperationKind × Option String} (h : Declared rs b location entries b₁)
    (hok : b₁.declareNamedRoot location entry = .ok b₂) :
    Declared rs b location (entries ++ [entry]) b₂ := by
  obtain ⟨hsame, hroots⟩ := h
  obtain ⟨hsame', hroots'⟩ := hroots.declareNamedRoot hok
  refine ⟨hsame.trans hsame', ?_⟩
  rw [List.flatMap_append, List.flatMap_singleton, ← List.append_assoc]
  exact hroots'

/-- At first nothing has been declared. -/
private theorem declared_nil (h : RootsHeld rs b) (location : SourceLocation) :
    Declared rs b location [] b :=
  ⟨.refl b, (List.append_nil rs).symm ▸ h⟩

/-- Declaring the roots that are named adds them to those that are held. -/
theorem foldlM_declareNamedRoot (h : RootsHeld rs b) {location : SourceLocation}
    {entries : List (OperationKind × Option String)}
    (hok : entries.foldlM (Builder.declareNamedRoot location) b = .ok b') :
    SameButRoots b b' ∧ RootsHeld (rs ++ entries.flatMap (namedRoot location)) b' :=
  foldlM_invariant declared_step (h.declared_nil location) hok

/-- The roots that are named can be declared if no kind has one twice then. -/
theorem exists_foldlM_declareNamedRoot (h : RootsHeld rs b) {location : SourceLocation}
    {entries : List (OperationKind × Option String)}
    (honce : ((rs ++ entries.flatMap (namedRoot location)).map Prod.fst).Nodup) :
    ∃ b', entries.foldlM (Builder.declareNamedRoot location) b = .ok b' := by
  refine exists_foldlM_of_step
    (C := fun entries => ((rs ++ entries.flatMap (namedRoot location)).map Prod.fst).Nodup)
    declared_step ?_ ?_ (h.declared_nil location) honce
  · rintro entries b₁ entry ⟨-, hroots⟩ honce
    rw [List.flatMap_append, List.flatMap_singleton, ← List.append_assoc] at honce
    exact hroots.exists_declareNamedRoot honce
  · intro entries entries' honce
    rw [List.flatMap_append, ← List.append_assoc, List.map_append] at honce
    exact (List.nodup_append.1 honce).1

/-- Two kinds pass the check just if their roots, as far as they are declared, differ. -/
theorem checkDistinctRoots_eq_ok_iff (h : RootsHeld rs b) (kind kind' : OperationKind) :
    b.checkDistinctRoots kind kind' = .ok () ↔
      ∀ r r', (kind, r) ∈ rs → (kind', r') ∈ rs → r.type ≠ r'.type := by
  simp only [← h.declared, Builder.checkDistinctRoots]
  cases b.root? kind with
  | none => exact ⟨fun _ _ _ hr => (nomatch hr), fun _ => rfl⟩
  | some r =>
    cases b.root? kind' with
    | none => exact ⟨fun _ _ _ _ hr => (nomatch hr), fun _ => rfl⟩
    | some r' =>
      by_cases htype : r.type = r'.type
      · refine ⟨fun hok => ?_, fun hne => absurd htype (hne r r' rfl rfl)⟩
        simp only [if_pos htype] at hok
        exact nomatch hok
      · simp only [if_neg htype, true_iff]
        intro _ _ hr hr'
        rw [← Option.some.inj hr, ← Option.some.inj hr']
        exact htype

/-- The three kinds of operation have different roots just if no two roots that are declared are the
same type. -/
theorem nodup_types_iff (h : RootsHeld rs b) :
    (rs.map fun r => r.2.type).Nodup ↔
      b.checkDistinctRoots .query .mutation = .ok () ∧
      b.checkDistinctRoots .query .subscription = .ok () ∧
      b.checkDistinctRoots .mutation .subscription = .ok () := by
  have hsymm {kind kind' : OperationKind}
      (hne : ∀ r r', (kind, r) ∈ rs → (kind', r') ∈ rs → r.type ≠ r'.type) :
      ∀ r r', (kind', r) ∈ rs → (kind, r') ∈ rs → r.type ≠ r'.type :=
    fun r r' hr hr' heq => hne r' r hr' hr heq.symm
  simp only [h.checkDistinctRoots_eq_ok_iff]
  constructor
  · intro hnodup
    have hne {kind kind' : OperationKind} (hkinds : kind ≠ kind') (r r' : RootDeclaration)
        (hr : (kind, r) ∈ rs) (hr' : (kind', r') ∈ rs) : r.type ≠ r'.type := by
      intro htype
      have hsame := List.inj_on_of_nodup_map hnodup hr hr' htype
      exact hkinds (congrArg Prod.fst hsame)
    exact ⟨hne (by decide), hne (by decide), hne (by decide)⟩
  · rintro ⟨hqm, hqs, hms⟩
    -- each pair of kinds has been checked, in one of the two orders
    have hne {kind kind' : OperationKind} (hkinds : kind ≠ kind') :
        ∀ r r', (kind, r) ∈ rs → (kind', r') ∈ rs → r.type ≠ r'.type := by
      cases kind <;> cases kind' <;>
        first
        | exact absurd rfl hkinds
        | assumption
        | exact hsymm ‹_›
    -- two roots that are declared are of different kinds, since each kind has one only
    refine List.pairwise_map.2 ((List.pairwise_map.1 h.once).imp_of_mem ?_)
    rintro ⟨kind, r⟩ ⟨kind', r'⟩ hr hr' hkinds
    exact hne hkinds r r' hr hr'

end RootsHeld

end GraphQLCheck
