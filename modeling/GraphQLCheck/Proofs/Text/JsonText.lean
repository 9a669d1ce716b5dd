import Mathlib.Data.Nat.Digits.Defs
import Mathlib.Data.List.TakeWhile
import GraphQLCheck.Text.Json

/-!
# What written JSON says

The text of a JSON value says which value it is. `Json.ToldApart` is what is shown for this of each
form of a value: even if something comes after its text, another text that begins in the same way is
that of the same value. What comes after a number must not go on with digits.

Main statement: different values have different texts (`Json.text_injective`).
-/

namespace GraphQLCheck

namespace Json

/-- Whether something cannot be taken for the rest of a number. -/
def NoDigitFirst (cs : List Char) : Prop := ∀ c ∈ cs.head?, c.isDigit = false

/-- Whether the written form of `a` can be told from all other ones, whatever comes after it. -/
def ToldApart {α : Type} (write : α → String) (a : α) : Prop :=
  ∀ b x y, NoDigitFirst x → NoDigitFirst y → (write a).toList ++ x = (write b).toList ++ y →
    a = b ∧ x = y

/-! ## Numbers -/

/-- A written number consists of digits. -/
theorem isDigit_of_mem_toString {n : Nat} {c : Char} (h : c ∈ (toString n).toList) :
    c.isDigit = true := by
  rw [Nat.toString_eq_ofList_toDigits, String.toList_ofList] at h
  exact Nat.isDigit_of_mem_toDigits (by decide) (by decide) h

/-- A written number is not empty. -/
theorem exists_toString_eq_cons (n : Nat) : ∃ c cs, (toString n).toList = c :: cs := by
  apply List.exists_cons_of_ne_nil
  rw [Nat.toString_eq_ofList_toDigits, String.toList_ofList]
  exact Nat.toDigits_ne_nil

/-- A number goes on as long as there are digits. -/
theorem takeWhile_isDigit {n : Nat} {x : List Char} (hx : NoDigitFirst x) :
    ((toString n).toList ++ x).takeWhile Char.isDigit = (toString n).toList := by
  rw [List.takeWhile_append_of_pos fun c hc => isDigit_of_mem_toString hc]
  cases x with
  | nil => simp
  | cons c x => simp [hx c rfl]

/-- A number can be told from all other numbers, as what comes after it is no digit. -/
theorem toldApart_number (n : Nat) : ToldApart (toString : Nat → String) n := by
  intro m x y hx hy h
  -- both numbers end where the digits do
  have hdigits := congrArg (List.takeWhile Char.isDigit) h
  rw [takeWhile_isDigit hx, takeWhile_isDigit hy] at hdigits
  rw [hdigits] at h
  refine ⟨?_, List.append_cancel_left h⟩
  simp only [Nat.toString_eq_ofList_toDigits, String.toList_ofList] at hdigits
  have hnumbers := congrArg (Nat.ofDigitChars 10 · 0) hdigits
  simpa only [Nat.ofDigitChars_ten_toDigits] using hnumbers

/-! ## Strings -/

/-- What a hexadecimal digit stands for. -/
def hexValue (c : Char) : Nat := if c.isDigit then c.toNat - 48 else c.toNat - 87

/-- Reads the rest of an escaped character, behind the backslash. -/
def afterBackslash? : List Char → Option (Char × List Char)
  | [] => none
  | 'u' :: '0' :: '0' :: a :: b :: cs => some (Char.ofNat (16 * hexValue a + hexValue b), cs)
  | 'n' :: cs => some ('\n', cs)
  | 'r' :: cs => some ('\r', cs)
  | 't' :: cs => some ('\t', cs)
  | 'b' :: cs => some ('\x08', cs)
  | 'f' :: cs => some ('\x0c', cs)
  | c :: cs => some (c, cs)

/-- Reads a character of a quoted text, if the closing quote does not come first. -/
def unescape? : List Char → Option (Char × List Char)
  | [] => none
  | c :: cs => if c = '"' then none else if c = '\\' then afterBackslash? cs else some (c, cs)

/-- A hexadecimal digit is read as what it was written for. -/
theorem hexValue_digitChar {n : Nat} (hn : n < 16) : hexValue n.digitChar = n := by
  revert n
  decide

/-- An escaped character is read back, and nothing of what comes after it. -/
theorem unescape?_escape (c : Char) (cs : List Char) :
    unescape? ((escape c).toList ++ cs) = some (c, cs) := by
  unfold escape
  split_ifs with hquote hbackslash hline hreturn htab hback hfeed hcontrol
  -- seven characters have an escape of their own, and the last two cases are those of other
  -- control characters and of characters that stand for themselves
  iterate 7
    · subst c
      simp [unescape?, afterBackslash?]
  · have hcode : 16 * (c.toNat / 16) + c.toNat % 16 = c.toNat := Nat.div_add_mod ..
    simp [unescape?, afterBackslash?, hexValue_digitChar (show c.toNat / 16 < 16 by omega),
      hexValue_digitChar (show c.toNat % 16 < 16 by omega), hcode, -Char.toNat_val]
  · simp [unescape?, hquote, hbackslash, Char.toString]

/-- The closing quote is no character of the quoted text. -/
theorem unescape?_quote (cs : List Char) : unescape? ('"' :: cs) = none := rfl

/-- Quoted characters end at the closing quote. -/
theorem eq_of_escaped : ∀ {cs ds x y : List Char},
    cs.flatMap (fun c => (escape c).toList) ++ '"' :: x =
      ds.flatMap (fun c => (escape c).toList) ++ '"' :: y → cs = ds ∧ x = y
  | [], [], x, y, h => ⟨rfl, (List.cons.inj h).2⟩
  -- the closing quote is not the beginning of an escaped character
  | [], d :: ds, x, y, h => by
    have hfirst := congrArg unescape? h
    rw [List.flatMap_nil, List.nil_append, unescape?_quote, List.flatMap_cons, List.append_assoc,
      unescape?_escape] at hfirst
    contradiction
  | c :: cs, [], x, y, h => by
    have hfirst := congrArg unescape? h
    rw [List.flatMap_nil, List.nil_append, unescape?_quote, List.flatMap_cons, List.append_assoc,
      unescape?_escape] at hfirst
    contradiction
  | c :: cs, d :: ds, x, y, h => by
    have hfirst := congrArg unescape? h
    simp only [List.flatMap_cons, List.append_assoc, unescape?_escape, Option.some.injEq,
      Prod.mk.injEq] at hfirst
    obtain ⟨rfl, hrest⟩ := hfirst
    obtain ⟨rfl, hxy⟩ := eq_of_escaped hrest
    exact ⟨rfl, hxy⟩

/-- A quoted text can be told from all other ones. -/
theorem toldApart_quote (s : String) : ToldApart quote s := by
  intro t x y _ _ h
  simp only [quote, String.toList_append, String.toList_join, List.flatMap_map,
    List.append_assoc] at h
  obtain ⟨hchars, hxy⟩ := eq_of_escaped (List.cons.inj h).2
  exact ⟨String.toList_inj.mp hchars, hxy⟩

/-! ## Arrays and objects -/

/-- All texts but the first one have the separator before them. -/
theorem toList_intercalate_cons (separator s : String) (ss : List String) :
    (separator.intercalate (s :: ss)).toList =
      s.toList ++ ss.flatMap fun t => separator.toList ++ t.toList := by
  induction ss generalizing s with
  | nil => simp
  | cons t ss ih => simp [String.intercalate_cons_cons, ih]

section Items

variable {α : Type} {write : α → String} {margin : String}

/-- What comes after the first item between two brackets, up to the end of the last one. -/
def otherLines (write : α → String) (margin : String) (as : List α) : List Char :=
  as.flatMap fun a => ',' :: '\n' :: (margin.toList ++ (write a).toList)

/-- After the first item comes a comma or a line break, so a number ends there. -/
theorem noDigitFirst_otherLines (as : List α) (x : List Char) :
    NoDigitFirst (otherLines write margin as ++ '\n' :: x) := by
  cases as with
  | nil => simp [otherLines, NoDigitFirst]
  | cons a as => simp [otherLines, NoDigitFirst]

/-- The items after the first one can be told from other ones if each item can, since a comma comes
before each of them and none after the last one. -/
theorem eq_of_otherLines : ∀ {as bs : List α} {x y : List Char}, (∀ a ∈ as, ToldApart write a) →
    otherLines write margin as ++ '\n' :: x = otherLines write margin bs ++ '\n' :: y →
      as = bs ∧ x = y
  | [], [], x, y, _, h => ⟨rfl, (List.cons.inj h).2⟩
  | [], b :: bs, x, y, _, h => by simp [otherLines] at h
  | a :: as, [], x, y, _, h => by simp [otherLines] at h
  | a :: as, b :: bs, x, y, ha, h => by
    obtain ⟨hfirst, hothers⟩ := List.forall_mem_cons.mp ha
    have hline : (write a).toList ++ (otherLines write margin as ++ '\n' :: x) =
        (write b).toList ++ (otherLines write margin bs ++ '\n' :: y) := by
      simpa [otherLines] using h
    obtain ⟨rfl, hrest⟩ := hfirst b _ _ (noDigitFirst_otherLines as x)
      (noDigitFirst_otherLines bs y) hline
    obtain ⟨rfl, hxy⟩ := eq_of_otherLines hothers hrest
    exact ⟨rfl, hxy⟩

/-- Nothing stands between brackets without items, not even a line break. -/
theorem toList_bracket_nil (opening closing indent : String) :
    (bracket opening closing indent []).toList = opening.toList ++ closing.toList := by
  rw [bracket, if_pos rfl, String.toList_append]

/-- The first item stands on a line after the opening bracket, and the closing one after the others.
-/
theorem toList_bracket_cons (opening closing indent : String) (a : α) (as : List α) :
    (bracket opening closing indent ((a :: as).map write)).toList =
      opening.toList ++ '\n' :: ((indent ++ "  ").toList ++ ((write a).toList ++
        (otherLines write (indent ++ "  ") as ++ '\n' :: (indent.toList ++ closing.toList)))) := by
  rw [bracket, if_neg (by simp), List.map_cons, List.map_cons]
  simp only [String.toList_append, toList_intercalate_cons]
  simp [otherLines, List.flatMap_map]

/-- Items between brackets can be told from other ones if each item can. -/
theorem toldApart_bracket {opening closing indent : String} {as : List α}
    (hclosing : ∀ x y, closing.toList ++ x ≠ '\n' :: y) (h : ∀ a ∈ as, ToldApart write a) :
    ToldApart (fun as => bracket opening closing indent (as.map write)) as := by
  intro bs x y hx hy heq
  cases as with
  | nil =>
    cases bs with
    | nil => exact ⟨rfl, List.append_cancel_left heq⟩
    -- a closing bracket is no line break, so neither list is empty without the other
    | cons b bs =>
      simp only [List.map_nil, toList_bracket_nil, toList_bracket_cons, List.append_assoc] at heq
      exact absurd (List.append_cancel_left heq) (hclosing _ _)
  | cons a as =>
    cases bs with
    | nil =>
      simp only [List.map_nil, toList_bracket_nil, toList_bracket_cons, List.append_assoc] at heq
      exact absurd (List.append_cancel_left heq).symm (hclosing _ _)
    | cons b bs =>
      rw [toList_bracket_cons, toList_bracket_cons] at heq
      -- with a comma before the first item, it is a line like the others
      have hlines : otherLines write (indent ++ "  ") (a :: as) ++
          '\n' :: (indent.toList ++ closing.toList ++ x) =
          otherLines write (indent ++ "  ") (b :: bs) ++
            '\n' :: (indent.toList ++ closing.toList ++ y) := by
        simpa [otherLines] using heq
      obtain ⟨hitems, hxy⟩ := eq_of_otherLines h hlines
      exact ⟨hitems, List.append_cancel_left hxy⟩

end Items

/-! ## Values -/

/-- The character with which the text of a value begins, if that is no digit. -/
def mark? : Json → Option Char
  | number _ => none
  | string _ => some '"'
  | array _ => some '['
  | object _ => some '\x7b'

/-- A value begins with its mark, or with a digit if it has none. -/
theorem filter_head?_write (indent : String) (j : Json) (x : List Char) :
    ((j.write indent).toList ++ x).head?.filter (fun c => !c.isDigit) = j.mark? := by
  cases j with
  | number n =>
    obtain ⟨c, cs, hc⟩ := exists_toString_eq_cons n
    have hdigit := isDigit_of_mem_toString (hc ▸ List.mem_cons_self)
    rw [write, hc]
    simp [hdigit, mark?]
  | string s => simp [write, quote, mark?]
  | array items =>
    rw [write, bracket]
    split
    · simp [mark?]
    · simp [mark?]
  | object members =>
    rw [write, bracket]
    split
    · simp [mark?]
    · simp [mark?]

/-- Two values whose texts begin in the same way have the same mark. -/
theorem mark?_eq_of_append {indent : String} {j j' : Json} {x y : List Char}
    (h : (j.write indent).toList ++ x = (j'.write indent).toList ++ y) : j.mark? = j'.mark? := by
  rw [← filter_head?_write indent j x, h, filter_head?_write]

/-- The written form of a member of an object. -/
def writeMember (indent : String) (m : String × Json) : String :=
  quote m.1 ++ ": " ++ m.2.write indent

/-- The items of an array are written one by one. -/
theorem writeItems_eq_map (indent : String) (items : List Json) :
    writeItems indent items = items.map (write indent) := by
  induction items with
  | nil => rfl
  | cons item items ih => rw [writeItems, ih, List.map_cons]

/-- The members of an object are written one by one. -/
theorem writeMembers_eq_map (indent : String) (members : List (String × Json)) :
    writeMembers indent members = members.map (writeMember indent) := by
  induction members with
  | nil => rfl
  | cons m members ih => rw [writeMembers, ih, List.map_cons, writeMember]

/-- A member of an object can be told from all other ones if its value can. -/
theorem toldApart_writeMember {indent : String} {m : String × Json}
    (h : ToldApart (write indent) m.2) : ToldApart (writeMember indent) m := by
  rintro ⟨key', value'⟩ x y hx hy heq
  obtain ⟨key, value⟩ := m
  simp only [writeMember, String.toList_append, List.append_assoc] at heq
  have hcolon (cs : List Char) : NoDigitFirst (": ".toList ++ cs) := by
    simp [NoDigitFirst]
  obtain ⟨rfl, hvalues⟩ := toldApart_quote key key' _ _ (hcolon _) (hcolon _) heq
  obtain ⟨rfl, hxy⟩ := h value' x y hx hy (List.append_cancel_left hvalues)
  exact ⟨rfl, hxy⟩

mutual

/-- The text of a value can be told from all other ones, whatever comes after it. -/
theorem toldApart_write : ∀ (j : Json) (indent : String), ToldApart (write indent) j
  | number n, indent => by
    intro j' x y hx hy h
    have hmark := mark?_eq_of_append h
    cases j' with
    -- the first character tells which kind of value it is
    | number m =>
      obtain ⟨rfl, hxy⟩ := toldApart_number n m x y hx hy h
      exact ⟨rfl, hxy⟩
    | _ => simp [mark?] at hmark
  | string s, indent => by
    intro j' x y hx hy h
    have hmark := mark?_eq_of_append h
    cases j' with
    | string t =>
      obtain ⟨rfl, hxy⟩ := toldApart_quote s t x y hx hy h
      exact ⟨rfl, hxy⟩
    | _ => simp [mark?] at hmark
  | array items, indent => by
    intro j' x y hx hy h
    have hmark := mark?_eq_of_append h
    cases j' with
    | array items' =>
      simp only [write, writeItems_eq_map] at h
      obtain ⟨rfl, hxy⟩ := toldApart_bracket (by simp) (toldApart_items items _) items' x y hx hy h
      exact ⟨rfl, hxy⟩
    | _ => simp [mark?] at hmark
  | object members, indent => by
    intro j' x y hx hy h
    have hmark := mark?_eq_of_append h
    cases j' with
    | object members' =>
      simp only [write, writeMembers_eq_map] at h
      obtain ⟨rfl, hxy⟩ :=
        toldApart_bracket (by simp) (toldApart_members members _) members' x y hx hy h
      exact ⟨rfl, hxy⟩
    | _ => simp [mark?] at hmark

/-- So can each item of an array. -/
theorem toldApart_items : ∀ (items : List Json) (indent : String),
    ∀ item ∈ items, ToldApart (write indent) item
  | [], _ => List.forall_mem_nil _
  | item :: items, indent =>
    List.forall_mem_cons.mpr ⟨toldApart_write item indent, toldApart_items items indent⟩

/-- So can each member of an object. -/
theorem toldApart_members : ∀ (members : List (String × Json)) (indent : String),
    ∀ m ∈ members, ToldApart (writeMember indent) m
  | [], _ => List.forall_mem_nil _
  | (_, value) :: members, indent =>
    List.forall_mem_cons.mpr
      ⟨toldApart_writeMember (toldApart_write value indent), toldApart_members members indent⟩

end

/-- Different values have different texts. -/
theorem text_injective : Function.Injective text := by
  intro j j' h
  have hend : NoDigitFirst [] := fun c hc => nomatch hc
  exact (toldApart_write j "" j' [] [] hend hend (congrArg (String.toList · ++ []) h)).1

end Json

end GraphQLCheck
