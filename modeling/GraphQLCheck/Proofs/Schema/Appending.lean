import GraphQLCheck.Proofs.Except
import GraphQLCheck.Proofs.OrderedMap
import GraphQLCheck.Schema.Members

/-!
# Adding written members one by one

Fields, input fields, enum values, union members and interfaces are all added in the same way: each
one must have a key of its own and fit, and is appended to what is there. `Appends` says that a step
works like this, and `Appends.foldlM_of_ok` and `Appends.exists_foldlM` say what follows for a list
of written members. The parameters of a field are different, since a later one may replace an
earlier one (`FieldDef.ofWritten_eq_ok`).
-/

namespace GraphQLCheck

/-- Whether a step adds to some contents, for an `x` that fits and whose item has a new key, the
item at the end, and fails for any other `x`. -/
structure Appends {σ α γ ε : Type} (step : σ → α → Except ε σ) (contents : σ → List γ)
    (key : γ → String) (item : α → γ) (fits : α → Prop) : Prop where
  /-- A step that succeeds has appended the item. -/
  of_ok : ∀ {s s' : σ} {x : α}, step s x = .ok s' →
    fits x ∧ key (item x) ∉ (contents s).map key ∧ contents s' = contents s ++ [item x]
  /-- An item that may be appended is appended. -/
  exists_ok : ∀ {s : σ} {x : α}, fits x → key (item x) ∉ (contents s).map key →
    ∃ s', step s x = .ok s'

namespace Appends

variable {σ α γ ε : Type} {step : σ → α → Except ε σ} {contents : σ → List γ} {key : γ → String}
  {item : α → γ} {fits : α → Prop}

/-- Whether the elements of a list have been added to the contents `cs`. -/
private def Added (fits : α → Prop) (key : γ → String) (item : α → γ) (cs : List γ) (xs : List α)
    (cs' : List γ) : Prop :=
  (∀ x ∈ xs, fits x) ∧ cs' = cs ++ xs.map item ∧ ((cs.map key).Nodup → (cs'.map key).Nodup)

/-- At first nothing has been added. -/
private theorem added_nil (cs : List γ) : Added fits key item cs [] cs :=
  ⟨fun _ hx => absurd hx List.not_mem_nil, (List.append_nil cs).symm, id⟩

/-- A step adds one more element. -/
private theorem added_step (h : Appends step contents key item fits) {cs : List γ} {xs : List α}
    {s s' : σ} {x : α} (hadded : Added fits key item cs xs (contents s))
    (hok : step s x = .ok s') : Added fits key item cs (xs ++ [x]) (contents s') := by
  obtain ⟨hx, hkey, hcontents⟩ := h.of_ok hok
  obtain ⟨hxs, hbefore, hnodup⟩ := hadded
  refine ⟨List.forall_mem_append.2 ⟨hxs, List.forall_mem_singleton.2 hx⟩, ?_, fun hcs => ?_⟩
  · rw [hcontents, hbefore, List.map_append, List.append_assoc]
    rfl
  · rw [hcontents, List.map_append, List.map_singleton]
    refine List.nodup_append.2 ⟨hnodup hcs, List.pairwise_singleton _ _, ?_⟩
    -- the new key differs from all keys there are
    intro a ha b hb hab
    rw [← List.mem_singleton.1 hb, ← hab] at hkey
    exact hkey ha

/-- If a list has been added, all of it fits and has been appended, and no two keys are the same. -/
theorem foldlM_of_ok (h : Appends step contents key item fits) {xs : List α} {s s' : σ}
    (hok : xs.foldlM step s = .ok s') :
    (∀ x ∈ xs, fits x) ∧ contents s' = contents s ++ xs.map item ∧
      (((contents s).map key).Nodup → ((contents s').map key).Nodup) :=
  foldlM_invariant (I := fun xs s' => Added fits key item (contents s) xs (contents s'))
    h.added_step (added_nil _) hok

/-- A list all of which fits can be added if no two keys are the same. -/
theorem exists_foldlM (h : Appends step contents key item fits) {xs : List α} {s : σ}
    (hfits : ∀ x ∈ xs, fits x)
    (hnodup : ((contents s).map key ++ xs.map fun x => key (item x)).Nodup) :
    ∃ s', xs.foldlM step s = .ok s' := by
  refine exists_foldlM_of_step
    (I := fun xs s' => Added fits key item (contents s) xs (contents s'))
    (C := fun xs => (∀ x ∈ xs, fits x) ∧
      ((contents s).map key ++ xs.map fun x => key (item x)).Nodup)
    h.added_step ?_ ?_ (added_nil _) ⟨hfits, hnodup⟩
  · rintro xs s' x ⟨-, hcontents, -⟩ ⟨hfits, hnodup⟩
    refine h.exists_ok (hfits x (List.mem_append_right xs (List.mem_singleton.2 rfl))) ?_
    rw [List.map_append, ← List.append_assoc] at hnodup
    -- what is there is what was there at first and what has been added since
    rw [hcontents, List.map_append, List.map_map]
    intro hmem
    exact (List.nodup_append.1 hnodup).2.2 _ hmem _ (List.mem_singleton.2 rfl) rfl
  · rintro xs ys ⟨hfits, hnodup⟩
    rw [List.map_append, ← List.append_assoc] at hnodup
    exact ⟨(List.forall_mem_append.1 hfits).1, (List.nodup_append.1 hnodup).1⟩

end Appends

/-- A step that, for an `x` that fits, looks a key up and inserts under it if it is new, appends an
entry. -/
theorem appends_insert {α β ε : Type} {step : OrderedMap β → α → Except ε (OrderedMap β)}
    {key : α → String} {value : α → β} {fits : α → Prop} (error : α → β → ε)
    (hfits : ∀ {m m' x}, step m x = .ok m' → fits x)
    (hstep : ∀ {m x}, fits x → step m x =
      match m.get? (key x) with
      | some first => .error (error x first)
      | none => .ok (m.insert (key x) (value x))) :
    Appends step OrderedMap.entries Prod.fst (fun x => (key x, value x)) fits where
  of_ok {m m' x} h := by
    have hx := hfits h
    rw [hstep hx] at h
    cases hget : m.get? (key x) with
    | some first =>
      rw [hget] at h
      exact nomatch h
    | none =>
      rw [hget] at h
      obtain rfl := Except.ok.inj h
      have hkey := OrderedMap.get?_eq_none_iff.1 hget
      exact ⟨hx, hkey, OrderedMap.entries_insert_of_not_mem hkey⟩
  exists_ok {m x} hx hkey := by
    refine ⟨m.insert (key x) (value x), ?_⟩
    have hget : m.get? (key x) = none := OrderedMap.get?_eq_none_iff.2 hkey
    rw [hstep hx, hget]

namespace FieldDef

/-- The field that is written in the source at `path`, where a later parameter takes the place of an
earlier one of the same name. -/
def written (path : Path) (f : TypeSystem.Field) : FieldDef where
  name := f.name
  location := .written path f.position
  description := f.description
  parameters := .ofList (f.arguments.map fun v => (v.name, .ofWritten path v))
  type := .ofExpr (.written path f.position) f.type

/-- Parameters are added as long as none has a reserved name. -/
private theorem foldlM_addParameter_eq_ok {path : Path} {type field : String}
    {vs : List TypeSystem.InputValue} {m m' : OrderedMap InputDef} :
    vs.foldlM (addParameter path type field) m = .ok m' ↔
      (∀ v ∈ vs, isReservedName v.name = false) ∧
        (vs.map fun v => (v.name, InputDef.ofWritten path v)).foldl
          (fun m e => m.insert e.1 e.2) m = m' := by
  induction vs generalizing m with
  | nil => exact pure_eq_ok.trans ⟨fun h => ⟨fun v hv => (nomatch hv), h⟩, And.right⟩
  | cons v vs ih =>
    rw [List.foldlM_cons, addParameter, List.forall_mem_cons, List.map_cons, List.foldl_cons]
    -- a parameter of a name that is there already is no error, so only the names matter
    cases hv : isReservedName v.name with
    | true => exact ⟨fun h => (nomatch h), fun ⟨⟨h, _⟩, _⟩ => nomatch h⟩
    | false => exact ih.trans ⟨fun ⟨h, hm⟩ => ⟨⟨rfl, h⟩, hm⟩, fun ⟨⟨_, h⟩, hm⟩ => ⟨h, hm⟩⟩

/-- A written field is taken if none of its parameters has a reserved name. -/
theorem ofWritten_eq_ok {path : Path} {type : String} {f : TypeSystem.Field} {field : FieldDef} :
    ofWritten path type f = .ok field ↔
      (∀ v ∈ f.arguments, isReservedName v.name = false) ∧ field = written path f := by
  rw [ofWritten]
  simp only [bind_eq_ok, foldlM_addParameter_eq_ok, pure_eq_ok]
  constructor
  · rintro ⟨_, ⟨hv, rfl⟩, rfl⟩
    exact ⟨hv, rfl⟩
  · rintro ⟨hv, rfl⟩
    exact ⟨_, ⟨hv, rfl⟩, rfl⟩

end FieldDef

namespace Members

/-- Fields are appended, unless one of the names that they give is reserved. -/
theorem appends_addField (path : Path) (type : String) :
    Appends (addField path type) OrderedMap.entries Prod.fst (fun f => (f.name, .written path f))
      (fun f => isReservedName f.name = false ∧
        ∀ v ∈ f.arguments, isReservedName v.name = false) := by
  refine appends_insert
    (fun f first => .duplicateField type f.name first.location (.written path f.position))
    (fun {m m' f} h => ?_) (fun {m f} hfits => ?_)
  · rw [addField] at h
    cases hname : isReservedName f.name with
    | true => rw [hname] at h; exact nomatch h
    | false =>
      rw [hname] at h
      -- the arguments are looked at only if the field is new
      cases hget : m.get? f.name with
      | some first => rw [hget] at h; exact nomatch h
      | none =>
        rw [hget] at h
        obtain ⟨field, hfield, -⟩ := bind_eq_ok.1 h
        exact ⟨rfl, (FieldDef.ofWritten_eq_ok.1 hfield).1⟩
  · obtain ⟨hname, harguments⟩ := hfits
    have hfield : FieldDef.ofWritten path type f = .ok (.written path f) :=
      FieldDef.ofWritten_eq_ok.2 ⟨harguments, rfl⟩
    rw [addField, if_neg (Bool.eq_false_iff.1 hname), hfield]
    cases m.get? f.name <;> rfl

/-- Input fields are appended, unless their names are reserved. -/
theorem appends_addInputField (path : Path) (type : String) :
    Appends (addInputField path type) OrderedMap.entries Prod.fst
      (fun v => (v.name, .ofWritten path v)) (fun v => isReservedName v.name = false) := by
  refine appends_insert
    (fun v first => .duplicateField type v.name first.location (.written path v.position))
    (fun {m m' v} h => ?_) (fun {m v} hname => ?_)
  · rw [addInputField] at h
    cases hname : isReservedName v.name with
    | true => rw [hname] at h; exact nomatch h
    | false => rfl
  · rw [addInputField]
    simp only [if_neg (Bool.eq_false_iff.1 hname)]
    cases m.get? v.name <;> rfl

/-- Enum values are appended. -/
theorem appends_addValue (path : Path) (enum : String) :
    Appends (addValue path enum) OrderedMap.entries Prod.fst
      (fun v => (v.name, ⟨v.name, .written path v.position, v.description⟩)) (fun _ => True) := by
  refine appends_insert
    (fun v first => .duplicateEnumValue enum v.name first.location (.written path v.position))
    (fun _ => trivial) (fun {m v} _ => ?_)
  rw [addValue]
  cases m.get? v.name <;> rfl

/-- Members of unions are appended. -/
theorem appends_addMember (location : SourceLocation) (union : String) :
    Appends (addMember location union) OrderedMap.entries Prod.fst
      (fun name => (name, ⟨name, location⟩)) (fun _ => True) := by
  refine @appends_insert _ _ _ _ id _ _
    (fun name first => .duplicateMember union name first.location location)
    (fun _ => trivial) (fun {m name} _ => ?_)
  rw [addMember, id]
  cases m.get? name <;> rfl

/-- Interfaces are appended, unless a type would implement itself. -/
theorem appends_addInterface (location : SourceLocation) (type : String) :
    Appends (addInterface location type) id TypeReference.name (fun name => ⟨name, location⟩)
      (fun name => name ≠ type) where
  of_ok {interfaces interfaces' name} h := by
    rw [addInterface] at h
    split at h
    next => exact nomatch h
    next hself =>
      split at h
      next => exact nomatch h
      next hmem =>
        refine ⟨hself, fun hname => hmem ?_, (Except.ok.inj h).symm⟩
        obtain ⟨r, hr, hrname⟩ := List.mem_map.1 hname
        exact List.any_eq_true.2 ⟨r, hr, decide_eq_true hrname⟩
  exists_ok {interfaces name} hself hkey := by
    refine ⟨interfaces ++ [⟨name, location⟩], ?_⟩
    rw [addInterface, if_neg hself, if_neg]
    intro hany
    obtain ⟨r, hr, hrname⟩ := List.any_eq_true.1 hany
    exact hkey (List.mem_map.2 ⟨r, hr, of_decide_eq_true hrname⟩)

end Members

end GraphQLCheck
