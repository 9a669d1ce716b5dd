import GraphQLCheck.OrderedMap

/-!
# What maps that keep insertion order hold

Lookup in terms of the entries (`get?_eq_some_iff`, `get?_eq_none_iff`), what inserting does to the
entries under a key that is new (`entries_insert_of_not_mem`) or present
(`entries_insert_of_mem`), and which entries are left of a list after all of it has been inserted
(`mem_entries_ofList`). `KeyedBy` says that everything is held under its own name.
-/

namespace GraphQLCheck

namespace OrderedMap

variable {α : Type} {m : OrderedMap α} {key : String} {value : α}

/-- Maps with the same entries are the same. -/
@[ext]
theorem ext {m n : OrderedMap α} (h : m.entries = n.entries) : m = n := by
  cases m
  cases n
  obtain rfl := h
  rfl

/-- Only what is not a key has no value. -/
theorem get?_eq_none_iff : m.get? key = none ↔ key ∉ m.keys :=
  lookup_eq_none_iff

/-- A key has the value of its entry. -/
theorem get?_eq_some_iff : m.get? key = some value ↔ (key, value) ∈ m.entries := by
  obtain ⟨entries, hnodup⟩ := m
  show entries.lookup key = some value ↔ (key, value) ∈ entries
  -- keys come once, so a later entry cannot have the key that is looked up first
  induction entries with
  | nil => exact ⟨fun h => (nomatch h), fun h => nomatch h⟩
  | cons e entries ih =>
    obtain ⟨k, v⟩ := e
    rw [List.map_cons, List.nodup_cons] at hnodup
    rw [List.lookup_cons, List.mem_cons, Prod.mk.injEq]
    by_cases h : key = k
    · subst h
      rw [beq_self_eq_true]
      constructor
      · intro hv
        exact .inl ⟨rfl, (Option.some.inj hv).symm⟩
      · rintro (⟨-, rfl⟩ | hmem)
        · rfl
        · exact absurd (List.mem_map_of_mem hmem) hnodup.1
    · rw [beq_false_of_ne h]
      refine (ih hnodup.2).trans ?_
      exact ⟨.inr, fun hmem => hmem.resolve_left fun heq => h heq.1⟩

/-- Maps with the same entries, in whatever order, have the same values under all keys. -/
theorem get?_eq_of_perm {n : OrderedMap α} (h : m.entries.Perm n.entries) :
    m.get? key = n.get? key := by
  ext value
  rw [get?_eq_some_iff, get?_eq_some_iff]
  exact h.mem_iff

/-- A key is there if it has a value. -/
theorem mem_keys_of_get? (h : m.get? key = some value) : key ∈ m.keys :=
  List.mem_map_of_mem (get?_eq_some_iff.1 h)

/-- What is a key has a value. -/
theorem exists_get?_of_mem_keys (h : key ∈ m.keys) : ∃ value, m.get? key = some value := by
  obtain ⟨⟨k, v⟩, hmem, rfl⟩ := List.mem_map.1 h
  exact ⟨v, get?_eq_some_iff.2 hmem⟩

/-- Inserting under a new key appends an entry. -/
theorem entries_insert_of_not_mem (h : key ∉ m.keys) :
    (m.insert key value).entries = m.entries ++ [(key, value)] := by
  rw [insert]
  split
  next v hv => exact absurd (mem_keys_of_get? hv) h
  next => rfl

/-- Inserting under a key that is present replaces the value in its place. -/
theorem entries_insert_of_mem (h : key ∈ m.keys) :
    (m.insert key value).entries =
      m.entries.map fun e => if e.1 = key then (e.1, value) else e := by
  rw [insert]
  split
  next => rfl
  next hnone => exact absurd h (get?_eq_none_iff.1 hnone)

/-- After an insertion the key has the new value, and the other entries are as before. -/
theorem mem_entries_insert {k : String} {v : α} :
    (k, v) ∈ (m.insert key value).entries ↔
      k = key ∧ v = value ∨ k ≠ key ∧ (k, v) ∈ m.entries := by
  by_cases h : key ∈ m.keys
  · rw [entries_insert_of_mem h, List.mem_map]
    constructor
    · rintro ⟨⟨k', v'⟩, hmem, heq⟩
      by_cases hk : k' = key
      · rw [if_pos hk, Prod.mk.injEq] at heq
        exact .inl ⟨heq.1.symm.trans hk, heq.2.symm⟩
      · rw [if_neg hk, Prod.mk.injEq] at heq
        obtain ⟨rfl, rfl⟩ := heq
        exact .inr ⟨hk, hmem⟩
    · rintro (⟨rfl, rfl⟩ | ⟨hk, hmem⟩)
      · -- the entry that is replaced has some other value
        obtain ⟨w, hw⟩ := exists_get?_of_mem_keys h
        exact ⟨(k, w), get?_eq_some_iff.1 hw, if_pos rfl⟩
      · exact ⟨(k, v), hmem, if_neg hk⟩
  · rw [entries_insert_of_not_mem h, List.mem_append, List.mem_singleton, Prod.mk.injEq]
    constructor
    · rintro (hmem | hnew)
      · refine .inr ⟨fun hk => h ?_, hmem⟩
        rw [← hk]
        exact List.mem_map_of_mem hmem
      · exact .inl hnew
    · rintro (hnew | ⟨-, hmem⟩)
      · exact .inr hnew
      · exact .inl hmem

/-- Inserting under a new key appends the key. -/
theorem keys_insert_of_not_mem (h : key ∉ m.keys) :
    (m.insert key value).keys = m.keys ++ [key] := by
  rw [keys, entries_insert_of_not_mem h, List.map_append]
  rfl

/-- Inserting under a key that is present keeps the keys. -/
theorem keys_insert_of_mem (h : key ∈ m.keys) : (m.insert key value).keys = m.keys := by
  rw [keys, entries_insert_of_mem h, List.map_map]
  refine List.map_congr_left fun e _ => ?_
  simp only [Function.comp_apply]
  split <;> rfl

/-- The key that is inserted is the only one that may be new. -/
theorem mem_keys_insert {k : String} : k ∈ (m.insert key value).keys ↔ k ∈ m.keys ∨ k = key := by
  by_cases h : key ∈ m.keys
  · rw [keys_insert_of_mem h]
    exact ⟨.inl, fun hk => hk.elim id fun heq => heq ▸ h⟩
  · rw [keys_insert_of_not_mem h, List.mem_append, List.mem_singleton]

/-- What is listed under a key has a value. -/
theorem mem_keys_ofList {entries : List (String × α)} {k : String} :
    k ∈ (ofList entries).keys ↔ k ∈ entries.map Prod.fst := by
  have hfoldl (m : OrderedMap α) : k ∈ (entries.foldl (fun m e => m.insert e.1 e.2) m).keys ↔
      k ∈ m.keys ∨ k ∈ entries.map Prod.fst := by
    induction entries generalizing m with
    | nil => exact (or_iff_left List.not_mem_nil).symm
    | cons e entries ih =>
      rw [List.foldl_cons, ih, mem_keys_insert, or_assoc, List.map_cons, List.mem_cons]
  rw [ofList, hfoldl]
  exact or_iff_right List.not_mem_nil

/-- The key has the value that has been inserted. -/
@[simp]
theorem get?_insert_self : (m.insert key value).get? key = some value :=
  get?_eq_some_iff.2 (mem_entries_insert.2 (.inl ⟨rfl, rfl⟩))

/-- Other keys have the same value as before. -/
theorem get?_insert_of_ne {k : String} (h : k ≠ key) : (m.insert key value).get? k = m.get? k := by
  ext v
  rw [get?_eq_some_iff, get?_eq_some_iff, mem_entries_insert]
  exact ⟨fun hmem => (hmem.resolve_left fun heq => h heq.1).2, fun hmem => .inr ⟨h, hmem⟩⟩

/-- Of several entries with one key that are inserted, the last one stays. -/
theorem mem_entries_ofList {entries : List (String × α)} {k : String} {v : α} :
    (k, v) ∈ (ofList entries).entries ↔
      ∃ before after, entries = before ++ (k, v) :: after ∧ k ∉ after.map Prod.fst := by
  rw [ofList]
  -- entries are inserted from the front, so the induction takes them off at the end
  induction h : entries.reverse generalizing entries with
  | nil =>
    obtain rfl := List.reverse_eq_nil_iff.1 h
    constructor
    · intro hmem
      exact nomatch hmem
    · rintro ⟨before, after, hentries, -⟩
      exact absurd hentries.symm (by simp)
  | cons e rest ih =>
    obtain rfl : entries = rest.reverse ++ [e] := by
      rw [← List.reverse_cons, ← h, List.reverse_reverse]
    obtain ⟨key, value⟩ := e
    rw [List.foldl_append, List.foldl_cons, List.foldl_nil, mem_entries_insert,
      ih (List.reverse_reverse rest)]
    constructor
    · rintro (⟨rfl, rfl⟩ | ⟨hk, before, after, hrest, hafter⟩)
      · exact ⟨rest.reverse, [], rfl, List.not_mem_nil⟩
      · refine ⟨before, after ++ [(key, value)], by rw [hrest, List.append_assoc]; rfl, ?_⟩
        rw [List.map_append, List.mem_append, List.map_singleton, List.mem_singleton]
        exact fun hmem => hmem.elim hafter hk
    · rintro ⟨before, after, hentries, hafter⟩
      -- the entry in question is the last one, or stands before it
      rcases List.eq_nil_or_concat after with rfl | ⟨after, last, rfl⟩
      · obtain ⟨-, heq⟩ := List.append_inj' hentries rfl
        exact .inl (Prod.mk.inj (List.singleton_inj.1 heq).symm)
      · rw [List.concat_eq_append] at hentries hafter
        rw [← List.cons_append, ← List.append_assoc] at hentries
        obtain ⟨hrest, heq⟩ := List.append_inj' hentries rfl
        obtain rfl := List.singleton_inj.1 heq
        rw [List.map_append, List.mem_append, not_or, List.map_singleton, List.mem_singleton]
          at hafter
        exact .inr ⟨hafter.2, before, after, hrest, hafter.1⟩

/-- The entries that are left are among those that have been inserted. -/
theorem entries_ofList_subset (entries : List (String × α)) :
    (ofList entries).entries ⊆ entries := by
  rintro ⟨key, value⟩ he
  obtain ⟨before, after, rfl, -⟩ := mem_entries_ofList.1 he
  exact List.mem_append_right _ List.mem_cons_self

/-- Whether everything in a map is held under its own name. -/
def KeyedBy (nameOf : α → String) (m : OrderedMap α) : Prop := ∀ e ∈ m.entries, nameOf e.2 = e.1

/-- A map of things that are listed under their own names holds them so. -/
theorem keyedBy_ofList {nameOf : α → String} {entries : List (String × α)}
    (h : ∀ e ∈ entries, nameOf e.2 = e.1) : (ofList entries).KeyedBy nameOf :=
  fun e he => h e (entries_ofList_subset entries he)

/-- Inserting entries under keys that are all new appends them. -/
theorem entries_foldl_insert {entries : List (String × α)} {m : OrderedMap α}
    (h : (m.keys ++ entries.map Prod.fst).Nodup) :
    (entries.foldl (fun m e => m.insert e.1 e.2) m).entries = m.entries ++ entries := by
  induction entries generalizing m with
  | nil => exact (List.append_nil _).symm
  | cons e entries ih =>
    obtain ⟨key, value⟩ := e
    rw [List.map_cons, List.append_cons] at h
    have hkey : key ∉ m.keys := fun hmem =>
      (List.nodup_append.1 (List.nodup_append.1 h).1).2.2 _ hmem _ (List.mem_singleton.2 rfl) rfl
    rw [← keys_insert_of_not_mem hkey] at h
    rw [List.foldl_cons, ih h, entries_insert_of_not_mem hkey, ← List.append_cons]

/-- A map has just the entries of which it is made if no two of them have one key. -/
theorem entries_ofList_eq_iff {entries : List (String × α)} :
    (ofList entries).entries = entries ↔ (entries.map Prod.fst).Nodup := by
  constructor
  · intro h
    rw [← h]
    exact (ofList entries).nodup_keys
  · exact fun h => entries_foldl_insert (m := empty) h

end OrderedMap

end GraphQLCheck
