import GraphQLCheck.Proofs.Schema.ResolvedTypes

/-!
# Written types can be read back

A written type is read from the outside, without regard to where its parts begin: a final `!` is
taken off, or else brackets around the whole text, and any other text is a name. `TypeExpr.Reads`
lists these three rules. Each goes on with a part of the text, and a type is read by finitely many
of them.

Main statements: whatever the text, reading it comes to an end, and to just what the rules make of
it (`reads_iff_ofChars_eq`), and a type whose name has no mark in it is what its written form is
read as (`ofText_text_eq_self`). The types of built-in definitions, which are given in the written
form, are therefore written down as they are given (`written_types_read_back`).
-/

namespace GraphQLCheck

namespace TypeExpr

/-- What a text is read as: before a final `!` comes what is non-null, between brackets around the
whole text comes the item of a list, and any other text is a name. -/
inductive Reads : List Char → TypeExpr → Prop
  | marked {inner : List Char} {e : TypeExpr} (h : Reads inner e) :
      Reads (inner ++ ['!']) (nonNull e)
  | bracketed {inner : List Char} {e : TypeExpr} (h : Reads inner e) :
      Reads ('[' :: (inner ++ [']'])) (list e)
  | plain {cs : List Char} (hmark : ∀ inner, cs ≠ inner ++ ['!'])
      (hbrackets : ∀ inner, cs ≠ '[' :: (inner ++ [']'])) :
      Reads cs (named (String.ofList cs))

/-- A final `!` is what is taken off first. -/
theorem ofChars_marked (inner : List Char) :
    ofChars (inner ++ ['!']) = nonNull (ofChars inner) := by
  rw [ofChars, dif_pos List.getLast?_concat, List.dropLast_concat]

/-- Brackets around the whole text are taken off together. -/
theorem ofChars_bracketed (inner : List Char) :
    ofChars ('[' :: (inner ++ [']'])) = list (ofChars inner) := by
  have hmark : ('[' :: (inner ++ [']'])).getLast? ≠ some '!' := by
    rw [← List.cons_append, List.getLast?_concat]
    decide
  rw [ofChars, dif_neg hmark, dif_pos ⟨rfl, List.getLast?_concat⟩, List.tail_cons,
    List.dropLast_concat]

/-- A text that has neither a final `!` nor brackets around it is a name. -/
theorem ofChars_plain {cs : List Char} (hmark : ∀ inner, cs ≠ inner ++ ['!'])
    (hbrackets : ∀ inner, cs ≠ '[' :: (inner ++ [']'])) :
    ofChars cs = named (String.ofList cs) := by
  rw [ofChars, dif_neg, dif_neg]
  · rintro ⟨hhead, hlast⟩
    obtain ⟨rest, rfl⟩ := List.head?_eq_some_iff.1 hhead
    obtain ⟨inner, rfl⟩ := List.getLast?_eq_some_iff.1 hlast
    exact hbrackets inner rfl
  · intro hlast
    obtain ⟨inner, rfl⟩ := List.getLast?_eq_some_iff.1 hlast
    exact hmark inner rfl

/-- Reading comes to what the rules make of the text. -/
theorem Reads.ofChars_eq {cs : List Char} {e : TypeExpr} (h : Reads cs e) : ofChars cs = e := by
  induction h with
  | marked _ ih => rw [ofChars_marked, ih]
  | bracketed _ ih => rw [ofChars_bracketed, ih]
  | plain hmark hbrackets => exact ofChars_plain hmark hbrackets

/-- The rules make something of every text. -/
theorem exists_reads (cs : List Char) : ∃ e, Reads cs e := by
  -- by induction on the length: a rule that goes on leaves one or two characters out
  by_cases hmark : ∃ inner, cs = inner ++ ['!']
  · obtain ⟨inner, rfl⟩ := hmark
    obtain ⟨e, he⟩ := exists_reads inner
    exact ⟨nonNull e, .marked he⟩
  · by_cases hbrackets : ∃ inner, cs = '[' :: (inner ++ [']'])
    · obtain ⟨inner, rfl⟩ := hbrackets
      obtain ⟨e, he⟩ := exists_reads inner
      exact ⟨list e, .bracketed he⟩
    · exact ⟨_, .plain (not_exists.1 hmark) (not_exists.1 hbrackets)⟩
termination_by cs.length
decreasing_by
  all_goals
    subst_vars
    simp only [List.length_cons, List.length_append, List.length_nil]
    omega

/-- A text is read as just what the rules make of it. -/
theorem reads_iff_ofChars_eq {cs : List Char} {e : TypeExpr} : Reads cs e ↔ ofChars cs = e := by
  refine ⟨Reads.ofChars_eq, ?_⟩
  rintro rfl
  obtain ⟨e, he⟩ := exists_reads cs
  rwa [he.ofChars_eq]

/-- Brackets that do not match are part of a name. -/
example : ofText "[Int!" = nonNull (named "[Int") := by cbv

/-- Whether a name has none of the marks in it that are written around names. -/
def IsBareName (name : String) : Prop :=
  '[' ∉ name.toList ∧ ']' ∉ name.toList ∧ '!' ∉ name.toList

/-- Whether a name has no marks in it is decidable. -/
instance (name : String) : Decidable (IsBareName name) := by
  unfold IsBareName
  infer_instance

/-- The rules make of a written type that type again. The marks in its text are its own, since its
name has none. -/
theorem reads_text {e : TypeExpr} (hname : IsBareName e.coreName) : Reads e.text.toList e := by
  induction e with
  | named name =>
    have hreads : Reads name.toList (named (String.ofList name.toList)) := by
      refine .plain (fun inner hinner => ?_) (fun inner hinner => ?_)
      · exact hname.2.2 (hinner ▸ List.mem_append_right _ List.mem_cons_self)
      · exact hname.1 (hinner ▸ List.mem_cons_self)
    rwa [String.ofList_toList] at hreads
  | list item ih =>
    have htext : (list item).text.toList = '[' :: (item.text.toList ++ [']']) := by
      rw [text, String.toList_append, String.toList_append, List.append_assoc]
      rfl
    rw [htext]
    exact .bracketed (ih hname)
  | nonNull inner ih =>
    rw [text, String.toList_append]
    exact .marked (ih hname)

/-- The written form of a type is read as the type. -/
theorem ofText_text_eq_self {e : TypeExpr} (hname : IsBareName e.coreName) : ofText e.text = e :=
  (reads_text hname).ofChars_eq

end TypeExpr

/-- Reading a type ends on every text, with just what the rules for it make of the text. If the name
at the core of a type has no mark in it, then the written form of the type is read as the type, and,
if no mark is repeated, the type of something built in that is given in this form is written down in
the same form again. -/
theorem written_types_read_back :
    (∀ text e, TypeExpr.Reads text.toList e ↔ TypeExpr.ofText text = e) ∧
    ∀ e : TypeExpr, TypeExpr.IsBareName e.coreName →
      TypeExpr.ofText e.text = e ∧
      (e.MarkedOnce → (AnnotatedType.builtIn e.text).text = e.text) := by
  refine ⟨fun text e => TypeExpr.reads_iff_ofChars_eq, fun e hname => ?_⟩
  have hread := TypeExpr.ofText_text_eq_self hname
  refine ⟨hread, fun hmarks => ?_⟩
  rw [AnnotatedType.builtIn, hread, AnnotatedType.ofExpr,
    AnnotatedType.text_ofExprAs .builtIn hmarks (.inl rfl), if_pos rfl, String.append_empty]

/-- A nested list with marks on two of its layers is read back. -/
theorem written_types_read_back_nestedList :
    let e : TypeExpr := .nonNull (.list (.list (.nonNull (.named "__Type"))))
    TypeExpr.IsBareName e.coreName ∧ e.MarkedOnce ∧ e.text = "[[__Type!]]!" ∧
      TypeExpr.ofText "[[__Type!]]!" = e ∧
      (AnnotatedType.builtIn "[[__Type!]]!").text = "[[__Type!]]!" := by
  intro e
  have hname : TypeExpr.IsBareName e.coreName := by decide
  have hmarks : e.MarkedOnce := by decide
  obtain ⟨hread, htext⟩ := written_types_read_back.2 e hname
  exact ⟨hname, hmarks, rfl, hread, htext hmarks⟩

end GraphQLCheck
