import Mathlib.Data.List.Lex
import GraphQLCheck.Files.Path
import GraphQLCheck.Proofs.Text.RawText

/-!
# The order of paths

Paths are sorted by bytes that are made of their components. `Path.Before` is the order itself: the
root, the directory itself and the directory above come before the names, names are in the order of
their bytes, and of two paths the first component in which they differ decides, if neither is the
beginning of the other.

Main statements: the sort puts a path before another one just if it comes before it in that order or
has the same components (`Path.le_iff`), and the extension of a name is what comes after its last
dot (`Path.extensionOfName?_eq_some_iff`).
-/

namespace GraphQLCheck

namespace Path

/-- A path that is a text is the one that is written as the text that it is shown as. -/
theorem mk_text_of_isText {p : Path} (h : p.isText = true) : mk p.text = p := by
  obtain ⟨s, hs⟩ := Option.isSome_iff_exists.1 h
  obtain ⟨raw⟩ := p
  obtain rfl : raw = .ofText s := RawText.text?_eq_some_iff.1 hs
  rw [mk, text, RawText.text_ofText]

namespace Component

/-- The place of a kind of component among the kinds. -/
def rank : Component → Nat
  | root => 0
  | here => 1
  | up => 2
  | name _ => 3

/-- Whether a component comes before another one: names are in the order of their bytes, and
otherwise the kinds decide. -/
def Before : Component → Component → Prop
  | name s, name t => s.bytes < t.bytes
  | a, b => a.rank < b.rank

/-- Components are the same if they are sorted by the same bytes. -/
theorem key_injective : Function.Injective key := by
  intro a b h
  cases a <;> cases b <;> simp [key, RawText.ext_iff] at h ⊢
  exact h

/-- The bytes by which components are sorted are in the order of the components. -/
theorem key_lt_key_iff {a b : Component} : a.key < b.key ↔ a.Before b := by
  -- the first bytes are in the order of the ranks
  cases a <;> cases b <;> simp [key, Before, rank, List.cons_lt_cons_iff]

end Component

/-- Whether a path comes before another one: the first component in which they differ decides, if
neither path is the beginning of the other. -/
def Before (p q : Path) : Prop := List.Lex Component.Before p.components q.components

/-- Paths are the same just if they have the same components. -/
theorem same_iff {p q : Path} : p.same q = true ↔ p.components = q.components := by
  simp [same]

/-- Paths are the same just if they are sorted by the same bytes. -/
theorem same_iff_sortKey {p q : Path} : p.same q = true ↔ p.sortKey = q.sortKey := by
  rw [same_iff, sortKey, sortKey, Component.key_injective.list_map.eq_iff]

/-- The bytes by which paths are sorted are in the order of the paths. -/
theorem sortKey_lt_sortKey_iff {p q : Path} : p.sortKey < q.sortKey ↔ p.Before q := by
  unfold sortKey Before
  generalize p.components = as
  generalize q.components = bs
  -- the first components decide just if their bytes do, and are equal just if these are
  induction as generalizing bs with
  | nil => cases bs <;> simp
  | cons a as ih =>
    cases bs with
    | nil => simp
    | cons b bs =>
      simp only [List.map_cons, List.cons_lt_cons_iff, List.cons_lex_cons_iff, ih,
        Component.key_lt_key_iff, Component.key_injective.eq_iff]

/-- What the sort compares is the dictionary order. -/
theorem keysLe_iff {as bs : List (List UInt8)} : keysLe as bs = true ↔ as < bs ∨ as = bs := by
  induction as generalizing bs with
  | nil => cases bs <;> simp [keysLe]
  | cons a as ih =>
    cases bs with
    | nil => simp [keysLe]
    | cons b bs =>
      simp only [keysLe, Bool.or_eq_true, Bool.and_eq_true, decide_eq_true_eq, ih,
        List.cons_lt_cons_iff, List.cons.injEq]
      tauto

/-- The sort puts a path before another one just if it comes before it or has the same
components. -/
theorem le_iff {p q : Path} : p.le q = true ↔ p.Before q ∨ p.same q = true := by
  rw [le, keysLe_iff, sortKey_lt_sortKey_iff, same_iff_sortKey]

/-- The order of the sort is transitive. -/
theorem le_trans {p q r : Path} (hpq : p.le q = true) (hqr : q.le r = true) : p.le r = true := by
  simp only [le, keysLe_iff] at hpq hqr ⊢
  rcases hpq with hpq | hpq
  · rcases hqr with hqr | hqr
    · exact .inl (List.lt_trans hpq hqr)
    · exact .inl (hqr ▸ hpq)
  · rw [hpq]
    exact hqr

/-- Of two paths the sort puts one before the other. -/
theorem le_total (p q : Path) : p.le q = true ∨ q.le p = true := by
  simp only [le, keysLe_iff]
  by_cases hlt : p.sortKey < q.sortKey
  · exact .inl (.inl hlt)
  · by_cases hgt : q.sortKey < p.sortKey
    · exact .inr (.inl hgt)
    · exact .inl (.inr (List.le_antisymm (List.not_lt.1 hgt) (List.not_lt.1 hlt)))

/-- Read backwards, a name whose last piece has no dots begins with this piece. -/
private theorem takeWhile_ne_dot {bs : List UInt8} (hbs : dot ∉ bs) (cs : List UInt8) :
    (bs.reverse ++ cs).takeWhile (· ≠ dot) = bs.reverse ++ cs.takeWhile (· ≠ dot) := by
  apply List.takeWhile_append_of_pos
  intro b hb
  have hne : b ≠ dot := fun h => hbs (h ▸ List.mem_reverse.mp hb)
  exact decide_eq_true hne

/-- A name without dots has no extension. -/
theorem extensionOfName?_of_not_mem {s : RawText} (hs : dot ∉ s.bytes) :
    extensionOfName? s = none := by
  have hafter := takeWhile_ne_dot hs []
  simp only [List.append_nil, List.takeWhile_nil] at hafter
  unfold extensionOfName?
  simp only [hafter, List.drop_length]

/-- What comes after the last dot of a name is its extension, if something comes before the dot. -/
theorem extensionOfName?_append {stem : List UInt8} {e : RawText} (he : dot ∉ e.bytes) :
    extensionOfName? ⟨stem ++ dot :: e.bytes⟩ = if stem = [] then none else some e := by
  have hreverse : (stem ++ dot :: e.bytes).reverse = e.bytes.reverse ++ dot :: stem.reverse := by
    simp
  have hafter := takeWhile_ne_dot he (dot :: stem.reverse)
  simp only [ne_eq, not_true_eq_false, decide_false, Bool.false_eq_true, not_false_eq_true,
    List.takeWhile_cons_of_neg, List.append_nil] at hafter
  unfold extensionOfName?
  simp only [hreverse, ne_eq, hafter, List.drop_left, List.reverse_reverse]
  -- a name that begins with its only dot has no extension
  cases hstem : stem.reverse with
  | nil =>
    have hempty : stem = [] := List.reverse_eq_nil_iff.1 hstem
    simp [hempty]
  | cons b bs =>
    have hne : stem ≠ [] := by
      rintro rfl
      exact nomatch hstem
    simp [hne]

/-- The extension of a name is what comes after its last dot, if that is not its first byte. -/
theorem extensionOfName?_eq_some_iff {s e : RawText} :
    extensionOfName? s = some e ↔
      dot ∉ e.bytes ∧ ∃ stem, stem ≠ [] ∧ s.bytes = stem ++ dot :: e.bytes := by
  constructor
  · intro h
    -- the last dot is the first one that is met backwards
    by_cases hdot : dot ∈ s.bytes
    · obtain ⟨after, before, hs, hafter⟩ := List.eq_append_cons_of_mem (List.mem_reverse.mpr hdot)
      have hsplit : s = ⟨before.reverse ++ dot :: after.reverse⟩ := by
        rw [List.reverse_eq_iff] at hs
        rw [RawText.ext_iff, hs]
        simp
      have hafter' : dot ∉ (RawText.mk after.reverse).bytes := by simpa using hafter
      rw [hsplit, extensionOfName?_append hafter'] at h
      split_ifs at h with hstem
      obtain rfl := Option.some.inj h
      exact ⟨hafter', _, hstem, congrArg RawText.bytes hsplit⟩
    · rw [extensionOfName?_of_not_mem hdot] at h
      contradiction
  · rintro ⟨he, stem, hstem, hs⟩
    obtain rfl : s = ⟨stem ++ dot :: e.bytes⟩ := RawText.ext hs
    rw [extensionOfName?_append he, if_neg hstem]

end Path

end GraphQLCheck
