import GraphQLCheck.Proofs.Schema.Written

/-!
# Which types a map holds

`TypesHeld` says which types a map holds once some definitions and, after them, some extensions have
gone into it, and `AllMerge` when extensions go together with the definitions of their types.

Main statements: putting in a definition keeps `TypesHeld` (`TypesHeld.insert`), merging extensions
keeps it (`TypesHeld.foldlM_merge`), and extensions of types that are defined can be merged if all
of them go together with their types (`TypesHeld.exists_foldlM_merge`).
-/

namespace GraphQLCheck

open TypeSystem (TypeDefinition TypeExtension)

/-- The parts of a type: its definition, and those of some extensions that are its own. -/
def partsOf (d : Path × TypeDefinition) (es : List (Path × TypeExtension)) : List Part :=
  .ofDefinition d.1 d.2 ::
    (es.filter fun e => e.2.name = d.2.name).map fun e => .ofExtension e.1 e.2

/-- A part of a type is its definition or one of its extensions. -/
theorem mem_partsOf {d : Path × TypeDefinition} {es : List (Path × TypeExtension)} {part : Part} :
    part ∈ partsOf d es ↔ part = .ofDefinition d.1 d.2 ∨
      ∃ e ∈ es, e.2.name = d.2.name ∧ part = .ofExtension e.1 e.2 := by
  simp only [partsOf, List.mem_cons, List.mem_map, List.mem_filter, decide_eq_true_eq, and_assoc,
    @eq_comm _ _ part]

/-- What a definition and some extensions, as far as they are of the same type, write in all. -/
def bodiesOf (d : TypeDefinition) (es : List (Path × TypeExtension)) : List TypeSystem.Body :=
  d.body :: (es.filter fun e => e.2.name = d.name).map fun e => e.2.body

/-- The parts of a type are what its definition and its extensions write. -/
theorem map_body_partsOf (d : Path × TypeDefinition) (es : List (Path × TypeExtension)) :
    (partsOf d es).map Part.body = bodiesOf d.2 es := by
  rw [partsOf, List.map_cons, List.map_map]
  rfl

/-- An extension of another type is no part. -/
theorem partsOf_append_of_ne {d : Path × TypeDefinition} {e : Path × TypeExtension}
    (es : List (Path × TypeExtension)) (h : e.2.name ≠ d.2.name) :
    partsOf d (es ++ [e]) = partsOf d es := by
  rw [partsOf, List.filter_append, List.filter_cons_of_neg (by simp [h]), List.filter_nil,
    List.append_nil, partsOf]

/-- An extension of the type is its last part. -/
theorem partsOf_append_of_eq {d : Path × TypeDefinition} {e : Path × TypeExtension}
    (es : List (Path × TypeExtension)) (h : e.2.name = d.2.name) :
    partsOf d (es ++ [e]) = partsOf d es ++ [.ofExtension e.1 e.2] := by
  rw [partsOf, List.filter_append, List.filter_cons_of_pos (by simp [h]), List.filter_nil,
    List.map_append, partsOf]
  rfl

/-- A type that no extension is for has just the part that is its definition. -/
theorem partsOf_of_forall_ne {d : Path × TypeDefinition} {es : List (Path × TypeExtension)}
    (h : ∀ e ∈ es, e.2.name ≠ d.2.name) : partsOf d es = [.ofDefinition d.1 d.2] := by
  rw [partsOf, List.filter_eq_nil_iff.2 fun e he => by simp [h e he]]
  rfl

/-- Whether a map holds, besides the built-in scalars, the types that are defined by `defs`, with
the extensions `es` merged into them in that order. -/
structure TypesHeld (defs : List (Path × TypeDefinition)) (es : List (Path × TypeExtension))
    (types : TypeMap) : Prop where
  keys : types.keys = builtInNames ++ defs.map fun d => d.2.name
  builtIn : ∀ s : BuiltInScalar, types.get? s.name = some (.builtIn s)
  custom : ∀ d ∈ defs, ∃ t, types.get? d.2.name = some t ∧ Assembled d.1 d.2 (partsOf d es) t
  /-- Only types that are defined have been extended. -/
  extended : ∀ e ∈ es, e.2.name ∈ defs.map fun d => d.2.name

/-- Whether the extensions of all types that are defined go together with the definitions. -/
def AllMerge (defs : List (Path × TypeDefinition)) (es : List (Path × TypeExtension)) : Prop :=
  ∀ d ∈ defs, Merges d.2.name d.2.body.kind (bodiesOf d.2 es)

/-- Whether all extensions go together with the definitions is decidable. -/
instance (defs : List (Path × TypeDefinition)) (es : List (Path × TypeExtension)) :
    Decidable (AllMerge defs es) := by
  unfold AllMerge
  infer_instance

namespace AllMerge

variable {defs defs' : List (Path × TypeDefinition)} {es es' : List (Path × TypeExtension)}

/-- The order of the extensions does not matter. -/
theorem perm (h : AllMerge defs es) (hperm : es.Perm es') : AllMerge defs es' := by
  intro d hd
  refine (h d hd).perm (.cons _ (.map _ ?_))
  exact hperm.filter _

/-- Leaving extensions out keeps the parts together. -/
theorem left (h : AllMerge defs (es ++ es')) : AllMerge defs es := by
  intro d hd
  refine (h d hd).sublist (.cons_cons _ (.map _ ?_))
  exact (List.sublist_append_left es es').filter _

/-- Leaving definitions out keeps the parts together. -/
theorem subset (h : AllMerge defs' es) (hsub : defs ⊆ defs') : AllMerge defs es :=
  fun d hd => h d (hsub hd)

end AllMerge

namespace TypesHeld

variable {defs : List (Path × TypeDefinition)} {es es' : List (Path × TypeExtension)}
  {types types' : TypeMap}

/-- In the beginning there are the built-in scalars. -/
theorem empty : TypesHeld [] [] Builder.empty.types where
  keys := by decide
  builtIn s := by cases s <;> rfl
  custom d hd := nomatch hd
  extended e he := nomatch he

/-- No two types have one name. -/
theorem nodup (h : TypesHeld defs es types) :
    (builtInNames ++ defs.map fun d => d.2.name).Nodup :=
  h.keys ▸ types.nodup_keys

/-- A type that is held is built in, or defined and assembled from its parts. -/
theorem cases (h : TypesHeld defs es types) {name : String} {t : NamedType}
    (ht : types.get? name = some t) :
    (∃ s : BuiltInScalar, s.name = name ∧ t = .builtIn s) ∨
      ∃ d ∈ defs, d.2.name = name ∧ Assembled d.1 d.2 (partsOf d es) t := by
  -- all keys are known, so the name is built in or that of a definition
  have hmem := OrderedMap.mem_keys_of_get? ht
  rw [h.keys] at hmem
  rcases List.mem_append.1 hmem with hmem | hmem
  · obtain ⟨s, -, rfl⟩ := List.mem_map.1 hmem
    exact .inl ⟨s, rfl, Option.some.inj (ht.symm.trans (h.builtIn s))⟩
  · obtain ⟨d, hd, rfl⟩ := List.mem_map.1 hmem
    obtain ⟨t', ht', hassembled⟩ := h.custom d hd
    obtain rfl := Option.some.inj (ht.symm.trans ht')
    exact .inr ⟨d, hd, rfl, hassembled⟩

/-- The parts of all types go together. -/
theorem allMerge (h : TypesHeld defs es types) : AllMerge defs es := by
  intro d hd
  obtain ⟨t, -, hassembled⟩ := h.custom d hd
  rw [← map_body_partsOf]
  exact hassembled.merges

/-- A new type can be put in. -/
theorem insert (h : TypesHeld defs es types) {d : Path × TypeDefinition} {t : NamedType}
    (hnew : types.get? d.2.name = none) (ht : Assembled d.1 d.2 [.ofDefinition d.1 d.2] t) :
    TypesHeld (defs ++ [d]) es (types.insert d.2.name t) := by
  have hkey : d.2.name ∉ types.keys := OrderedMap.get?_eq_none_iff.1 hnew
  have hother {name : String} (hname : name ∈ types.keys) :
      (types.insert d.2.name t).get? name = types.get? name :=
    OrderedMap.get?_insert_of_ne fun heq => hkey (heq ▸ hname)
  refine ⟨?_, fun s => ?_, fun d' hd' => ?_, fun e he => ?_⟩
  · rw [OrderedMap.keys_insert_of_not_mem hkey, h.keys, List.map_append, List.append_assoc]
    rfl
  · rw [hother (OrderedMap.mem_keys_of_get? (h.builtIn s))]
    exact h.builtIn s
  · rcases List.mem_append.1 hd' with hd' | hd'
    · obtain ⟨t', ht', hassembled⟩ := h.custom d' hd'
      rw [hother (OrderedMap.mem_keys_of_get? ht')]
      exact ⟨t', ht', hassembled⟩
    · obtain rfl := List.mem_singleton.1 hd'
      refine ⟨t, OrderedMap.get?_insert_self, ?_⟩
      rw [partsOf_of_forall_ne]
      · exact ht
      · -- the extensions that have been merged belong to types with other names
        intro e he hname
        refine hkey ?_
        rw [h.keys, ← hname]
        exact List.mem_append_right _ (h.extended e he)
  · rw [List.map_append]
    exact List.mem_append_left _ (h.extended e he)

/-- An extension is merged into its type. -/
theorem mergePending_eq_ok {path : Path} {e : TypeExtension} {t t' : NamedType}
    (hget : types.get? e.name = some t) (hextend : t.extend path e = .ok t') :
    Builder.mergePending types (path, e) = .ok (types.insert e.name t') := by
  rw [Builder.mergePending]
  simp only [hget]
  exact bind_eq_ok.2 ⟨t', hextend, rfl⟩

/-- Merging an extension that succeeds adds it as the last part of its type. -/
theorem merge {e : Path × TypeExtension} (h : TypesHeld defs es types)
    (hok : Builder.mergePending types e = .ok types') : TypesHeld defs (es ++ [e]) types' := by
  obtain ⟨path, e⟩ := e
  rw [Builder.mergePending] at hok
  cases hget : types.get? e.name with
  | none => rw [hget] at hok; exact nomatch hok
  | some t =>
    rw [hget] at hok
    obtain ⟨t', hextend, hok⟩ := bind_eq_ok.1 hok
    obtain rfl := pure_eq_ok.1 hok
    have hkey : e.name ∈ types.keys := OrderedMap.mem_keys_of_get? hget
    obtain ⟨-, hcustom, -⟩ := NamedType.adds_of_extend hextend
    have hne {name : String} {t'' : NamedType} (ht'' : types.get? name = some t'')
        (hname : name ≠ e.name) : (types.insert e.name t').get? name = some t'' := by
      rw [OrderedMap.get?_insert_of_ne hname]
      exact ht''
    refine ⟨(OrderedMap.keys_insert_of_mem hkey).trans h.keys, fun s => hne (h.builtIn s) ?_,
      fun d hd => ?_, fun e' he' => ?_⟩
    · -- a built-in scalar cannot be extended
      intro hname
      rw [← hname, h.builtIn s] at hget
      exact hcustom s (Option.some.inj hget).symm
    · obtain ⟨t'', ht'', hassembled⟩ := h.custom d hd
      -- the extension is the last part of the type that it names, and no part of the others
      by_cases hname : e.name = d.2.name
      · rw [hname] at hget
        obtain rfl := Option.some.inj (hget.symm.trans ht'')
        refine ⟨t', hname ▸ OrderedMap.get?_insert_self, ?_⟩
        rw [partsOf_append_of_eq (e := (path, e)) es hname]
        exact hassembled.extend hname hextend
      · refine ⟨t'', hne ht'' (Ne.symm hname), ?_⟩
        rw [partsOf_append_of_ne (e := (path, e)) es hname]
        exact hassembled
    · rcases List.mem_append.1 he' with he' | he'
      · exact h.extended e' he'
      · obtain rfl := List.mem_singleton.1 he'
        rcases h.cases hget with ⟨s, -, rfl⟩ | ⟨d, hd, hname, -⟩
        · exact absurd rfl (hcustom s)
        · exact List.mem_map.2 ⟨d, hd, hname⟩

/-- A type that is defined can be extended if the new part goes together with those that it has. -/
theorem exists_extend (h : TypesHeld defs es types) {e : Path × TypeExtension} {t : NamedType}
    (hget : types.get? e.2.name = some t) (hdefined : e.2.name ∈ defs.map fun d => d.2.name)
    (hmerge : AllMerge defs (es ++ [e])) : ∃ t', t.extend e.1 e.2 = .ok t' := by
  obtain ⟨d, hd, hname⟩ := List.mem_map.1 hdefined
  obtain ⟨t', ht', hassembled⟩ := h.custom d hd
  rw [← hname] at hget
  obtain rfl := Option.some.inj (hget.symm.trans ht')
  have hmerges := hmerge d hd
  rw [← map_body_partsOf, partsOf_append_of_eq es hname.symm] at hmerges
  exact hassembled.exists_extend hname.symm hmerges

/-- An extension of a type that is defined can be merged if its part goes together with those that
the type has. -/
theorem exists_merge (h : TypesHeld defs es types) {e : Path × TypeExtension}
    (hdefined : e.2.name ∈ defs.map fun d => d.2.name) (hmerge : AllMerge defs (es ++ [e])) :
    ∃ types', Builder.mergePending types e = .ok types' := by
  have hmem : e.2.name ∈ types.keys := h.keys ▸ List.mem_append_right _ hdefined
  obtain ⟨t, hget⟩ := OrderedMap.exists_get?_of_mem_keys hmem
  obtain ⟨t', hextend⟩ := h.exists_extend hget hdefined hmerge
  exact ⟨_, mergePending_eq_ok hget hextend⟩

/-- Extensions that have been merged one after the other. -/
theorem foldlM_merge (h : TypesHeld defs es types)
    (hok : es'.foldlM Builder.mergePending types = .ok types') :
    TypesHeld defs (es ++ es') types' :=
  foldlM_invariant merge h hok

/-- Extensions of types that are defined can be merged if they go together with their types. -/
theorem exists_foldlM_merge (h : TypesHeld defs es types)
    (hdefined : ∀ e ∈ es', e.2.name ∈ defs.map fun d => d.2.name)
    (hmerge : AllMerge defs (es ++ es')) :
    ∃ types', es'.foldlM Builder.mergePending types = .ok types' := by
  refine exists_foldlM_of_step
    (C := fun es => (∀ e ∈ es, e.2.name ∈ defs.map fun d => d.2.name) ∧ AllMerge defs es)
    merge ?_ ?_ h ⟨List.forall_mem_append.2 ⟨h.extended, hdefined⟩, hmerge⟩
  · rintro es types e h ⟨hdefined, hmerge⟩
    exact h.exists_merge (hdefined e (List.mem_append_right es (List.mem_singleton.2 rfl))) hmerge
  · rintro es es' ⟨hdefined, hmerge⟩
    exact ⟨(List.forall_mem_append.1 hdefined).1, hmerge.left⟩

end TypesHeld

end GraphQLCheck
