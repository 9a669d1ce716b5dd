/-!
# Maps that keep insertion order

An `OrderedMap` is a list of entries with distinct keys. Inserting under a new key appends, and
inserting under a key already present replaces the value and keeps the place of the entry.
-/

namespace GraphQLCheck

/-- A finite map from names that lists its entries in the order in which their keys came. -/
structure OrderedMap (α : Type) where
  /-- The entries, oldest key first. -/
  entries : List (String × α)
  /-- No key occurs twice. -/
  nodup_keys : (entries.map Prod.fst).Nodup

namespace OrderedMap

variable {α : Type}

/-- The map without entries. -/
def empty : OrderedMap α := ⟨[], List.nodup_nil⟩

instance : Inhabited (OrderedMap α) := ⟨empty⟩

/-- The keys, oldest first. -/
def keys (m : OrderedMap α) : List String := m.entries.map Prod.fst

/-- The values, in the order of their keys. -/
def values (m : OrderedMap α) : List α := m.entries.map Prod.snd

/-- The value under a key, if there is one. -/
def get? (m : OrderedMap α) (key : String) : Option α := m.entries.lookup key

/-- Whether a key has a value. -/
def contains (m : OrderedMap α) (key : String) : Bool := (m.get? key).isSome

/-- The number of entries. -/
def size (m : OrderedMap α) : Nat := m.entries.length

/-- Replaces the value under a key that is present; other maps stay as they are. -/
def replace (m : OrderedMap α) (key : String) (value : α) : OrderedMap α where
  entries := m.entries.map fun e => if e.1 = key then (e.1, value) else e
  nodup_keys := by
    have h : (m.entries.map fun e => if e.1 = key then (e.1, value) else e).map Prod.fst
        = m.entries.map Prod.fst := by
      rw [List.map_map]
      refine List.map_congr_left fun e _ => ?_
      simp only [Function.comp_apply]
      split <;> rfl
    rw [h]
    exact m.nodup_keys

/-- Looking a key up finds nothing exactly when the key is not listed. -/
theorem lookup_eq_none_iff {entries : List (String × α)} {key : String} :
    entries.lookup key = none ↔ key ∉ entries.map Prod.fst := by
  rw [List.lookup_eq_none_iff]
  constructor
  · intro h hkey
    obtain ⟨e, he, rfl⟩ := List.mem_map.1 hkey
    exact bne_iff_ne.1 (h e he) rfl
  · intro h e he
    exact bne_iff_ne.2 fun heq => h (heq ▸ List.mem_map_of_mem he)

/-- Appends an entry under a key that is not present. -/
def append (m : OrderedMap α) (key : String) (value : α) (h : m.get? key = none) :
    OrderedMap α where
  entries := m.entries ++ [(key, value)]
  nodup_keys := by
    have hk : key ∉ m.entries.map Prod.fst := lookup_eq_none_iff.1 h
    rw [List.map_append, List.nodup_append]
    refine ⟨m.nodup_keys, by simp, ?_⟩
    intro a ha b hb
    simp only [List.map_cons, List.map_nil, List.mem_singleton] at hb
    rintro rfl
    exact hk (hb ▸ ha)

/-- Puts a value under a key: in place of the value that is there, or else at the end. -/
def insert (m : OrderedMap α) (key : String) (value : α) : OrderedMap α :=
  match h : m.get? key with
  | some _ => m.replace key value
  | none => m.append key value h

/-- The map that results from inserting the listed entries one after the other. -/
def ofList (entries : List (String × α)) : OrderedMap α :=
  entries.foldl (fun m e => m.insert e.1 e.2) empty

/-- Equality as maps: the same keys with the same values, in whatever order. -/
def same (sameValue : α → α → Bool) (m₁ m₂ : OrderedMap α) : Bool :=
  m₁.size == m₂.size && m₁.entries.all fun e =>
    match m₂.get? e.1 with
    | some value => sameValue e.2 value
    | none => false

@[simp] theorem get?_empty (key : String) : (empty : OrderedMap α).get? key = none := rfl

end OrderedMap

end GraphQLCheck
