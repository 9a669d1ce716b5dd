import GraphQLCheck.Language.Reading.Document
import GraphQLCheck.Proofs.Document.Occurrences
import GraphQLCheck.Proofs.Except
import GraphQLCheck.Proofs.Text.ByteOrder

/-!
# Objects that are read have their fields in order

The fields of an object value are put in the order of their names when it is read. `Node.Sorted`
says that this is so of all objects in a node. What a reader gives is stated with `Ensures`: readers
of items that are sorted read lists of such items, and readers of parts read sorted wholes.

Main statement: in a document that has been read, the fields of every object come in the order of
their names, each name once (`Document.sorted_of_read`).
-/

namespace GraphQLCheck

/-! ## Fields in order -/

/-- Whether fields come in the order of the bytes of their names, each name once. -/
def FieldsSorted (fields : List ObjectField) : Prop :=
  fields.Pairwise fun f g => utf8Bytes f.name < utf8Bytes g.name

namespace ObjectField

/-- Putting a field at its place brings in no other field. -/
theorem mem_insertSorted {f g : ObjectField} {fields : List ObjectField}
    (h : g ∈ f.insertSorted fields) : g = f ∨ g ∈ fields := by
  induction fields with
  | nil => exact .inl (List.mem_singleton.mp h)
  | cons first fields ih =>
    rw [insertSorted] at h
    split_ifs at h
    · exact List.mem_cons.mp h
    · exact (List.mem_cons.mp h).imp_right (List.mem_cons_of_mem _)
    · rcases List.mem_cons.mp h with rfl | h
      · exact .inr List.mem_cons_self
      · exact (ih h).imp_right (List.mem_cons_of_mem _)

/-- A field is put at its place. -/
theorem fieldsSorted_insertSorted {f : ObjectField} {fields : List ObjectField}
    (h : FieldsSorted fields) : FieldsSorted (f.insertSorted fields) := by
  unfold FieldsSorted at h ⊢
  simp only [utf8Bytes_lt_iff] at h ⊢
  induction fields with
  | nil => exact List.pairwise_singleton _ _
  | cons first fields ih =>
    obtain ⟨hfirst, hfields⟩ := List.pairwise_cons.mp h
    rw [insertSorted]
    -- the field comes before the first one, takes its place, or goes among the others
    split_ifs with hlt heq
    · refine List.pairwise_cons.mpr ⟨fun g hg => ?_, h⟩
      rcases List.mem_cons.mp hg with rfl | hg
      · exact hlt
      · exact hlt.trans (hfirst g hg)
    · exact List.pairwise_cons.mpr ⟨fun g hg => heq ▸ hfirst g hg, hfields⟩
    · refine List.pairwise_cons.mpr ⟨fun g hg => ?_, ih hfields⟩
      rcases mem_insertSorted hg with rfl | hg
      · exact lt_of_le_of_ne (not_lt.mp hlt) (Ne.symm heq)
      · exact hfirst g hg

end ObjectField

namespace Node

/-- Whether the fields of a node come in order, if it is an object. -/
def FieldsInOrder : Node → Prop
  | objectValue fields => FieldsSorted fields
  | _ => True

/-- Whether the fields of all objects in a node come in order. -/
def Sorted (n : Node) : Prop := ∀ m ∈ n.subtree, m.FieldsInOrder

/-- A node is sorted just if its own fields come in order and its children are sorted. -/
theorem sorted_iff {n : Node} : n.Sorted ↔ n.FieldsInOrder ∧ ∀ c ∈ n.children, c.Sorted := by
  unfold Sorted
  rw [subtree_eq]
  simp only [List.forall_mem_cons, List.forall_mem_flatMap]

/-- A node that is no object is sorted if its children are. -/
theorem sorted_of_children {n : Node} (hn : n.FieldsInOrder) (h : ∀ c ∈ n.children, c.Sorted) :
    n.Sorted := sorted_iff.mpr ⟨hn, h⟩

/-- An object that is put in order is sorted if its fields are. -/
theorem sorted_ofFields {fields : List ObjectField} (h : ∀ f ∈ fields, (objectField f).Sorted) :
    (ofValue (.ofFields fields)).Sorted := by
  -- each field is put in its place among those before it, and no other fields come in
  have hfields := List.foldlRecOn
    (motive := fun sorted => FieldsSorted sorted ∧ ∀ f ∈ sorted, (objectField f).Sorted)
    fields (fun sorted f => f.insertSorted sorted) (b := [])
    ⟨.nil, fun f hf => nomatch hf⟩ fun sorted ⟨hsorted, hmem⟩ f hf => by
      refine ⟨ObjectField.fieldsSorted_insertSorted hsorted, fun g hg => ?_⟩
      rcases ObjectField.mem_insertSorted hg with rfl | hg
      · exact h _ hf
      · exact hmem g hg
  refine sorted_of_children hfields.1 fun c hc => ?_
  obtain ⟨f, hf, rfl⟩ := List.mem_map.mp hc
  exact hfields.2 f hf

/-- An argument is sorted if its value is. -/
theorem sorted_argument {a : Argument} (h : (ofValue a.value).Sorted) : (argument a).Sorted :=
  sorted_of_children trivial fun _ hc => List.mem_singleton.mp hc ▸ h

/-- A directive is sorted if its arguments are. -/
theorem sorted_directive {d : Directive} (h : ∀ a ∈ d.arguments, (argument a).Sorted) :
    (directive d).Sorted := by
  refine sorted_of_children trivial fun c hc => ?_
  obtain ⟨a, ha, rfl⟩ := List.mem_map.mp hc
  exact h a ha

/-- There are no objects in a type. -/
theorem sorted_ofType (t : TypeExpr) : (ofType t).Sorted := by
  induction t with
  | named name => exact sorted_of_children trivial fun c hc => nomatch hc
  | list item ih => exact sorted_of_children trivial fun c hc => List.mem_singleton.mp hc ▸ ih
  | nonNull inner ih => exact sorted_of_children trivial fun c hc => List.mem_singleton.mp hc ▸ ih

/-- There is no object in a type condition. -/
theorem sorted_namedType (name : String) : (namedType name).Sorted := sorted_ofType (.named name)

/-- What all nodes that are made of some parts meet, each of the nodes meets. -/
private theorem forall_mem_map {α : Type} {node : α → Node} {as : List α}
    (h : ∀ a ∈ as, (node a).Sorted) : ∀ c ∈ as.map node, c.Sorted :=
  List.forall_mem_map.mpr h

/-- A fragment spread is sorted if its directives are. -/
theorem sorted_fragmentSpread {s : FragmentSpread} (h : ∀ d ∈ s.directives, (directive d).Sorted) :
    (fragmentSpread s).Sorted := sorted_of_children trivial (forall_mem_map h)

/-- A selection set is sorted if its selections are. -/
theorem sorted_selectionSet {s : SelectionSet} (h : ∀ x ∈ s.items, (ofSelection x).Sorted) :
    (selectionSet s).Sorted := sorted_of_children trivial (forall_mem_map h)

/-- A field is sorted if its arguments, its directives and its selection set are. -/
theorem sorted_field {f : Field} (harguments : ∀ a ∈ f.arguments, (argument a).Sorted)
    (hdirectives : ∀ d ∈ f.directives, (directive d).Sorted)
    (hset : (selectionSet f.selectionSet).Sorted) : (field f).Sorted := by
  refine sorted_of_children trivial ?_
  rw [children, List.forall_mem_append, List.forall_mem_append]
  refine ⟨⟨forall_mem_map harguments, forall_mem_map hdirectives⟩, ?_⟩
  split
  · exact fun c hc => absurd hc List.not_mem_nil
  · exact List.forall_mem_singleton.mpr hset

/-- An inline fragment is sorted if its directives and its selection set are. -/
theorem sorted_inlineFragment {f : InlineFragment}
    (hdirectives : ∀ d ∈ f.directives, (directive d).Sorted)
    (hset : (selectionSet f.selectionSet).Sorted) : (inlineFragment f).Sorted := by
  refine sorted_of_children trivial ?_
  rw [children, List.forall_mem_append, List.forall_mem_append]
  exact ⟨⟨forall_mem_map fun name _ => sorted_namedType name, forall_mem_map hdirectives⟩,
    List.forall_mem_singleton.mpr hset⟩

/-- The definition of a variable is sorted if its default value is. -/
theorem sorted_variableDefinition {d : VariableDefinition}
    (h : ∀ v ∈ d.defaultValue, (ofValue v).Sorted) : (variableDefinition d).Sorted := by
  refine sorted_of_children trivial ?_
  rw [children, List.forall_mem_append]
  refine ⟨?_, forall_mem_map fun v hv => h v (Option.mem_toList.mp hv)⟩
  rw [List.forall_mem_cons, List.forall_mem_singleton]
  refine ⟨sorted_of_children trivial fun c hc => ?_, sorted_ofType d.type⟩
  exact absurd hc List.not_mem_nil

/-- An operation is sorted if its variables, its directives and its selection set are. -/
theorem sorted_operationDefinition {d : OperationDefinition}
    (hvariables : ∀ v ∈ d.variableDefinitions, (variableDefinition v).Sorted)
    (hdirectives : ∀ x ∈ d.directives, (directive x).Sorted)
    (hset : (selectionSet d.selectionSet).Sorted) : (operationDefinition d).Sorted := by
  refine sorted_of_children trivial ?_
  rw [children, List.forall_mem_append, List.forall_mem_append]
  exact ⟨⟨forall_mem_map hvariables, forall_mem_map hdirectives⟩,
    List.forall_mem_singleton.mpr hset⟩

/-- A fragment is sorted if its directives and its selection set are. -/
theorem sorted_fragmentDefinition {d : FragmentDefinition}
    (hdirectives : ∀ x ∈ d.directives, (directive x).Sorted)
    (hset : (selectionSet d.selectionSet).Sorted) : (fragmentDefinition d).Sorted := by
  refine sorted_of_children trivial ?_
  rw [children, List.forall_mem_append, List.forall_mem_cons]
  exact ⟨⟨sorted_namedType d.typeCondition, forall_mem_map hdirectives⟩,
    List.forall_mem_singleton.mpr hset⟩

/-- A document is sorted if its definitions are. -/
theorem sorted_document {d : Document} (h : ∀ x ∈ d.definitions, (ofDefinition x).Sorted) :
    (document d).Sorted := sorted_of_children trivial (forall_mem_map h)

end Node

/-! ## What readers give -/

namespace Reading

variable {α β : Type} {P : α → Prop} {ts : List Token}

/-- Items up to a closing mark are what each of them is read as. -/
theorem ensures_itemsUntil {close : Mark} {n : Nat} {item : ItemReader α n}
    (h : ∀ ts hts, Ensures (item ts hts) fun r => P r.value) (ts : List Token)
    (hts : ts.length < n) :
    Ensures (itemsUntil close item ts hts) fun r => ∀ x ∈ r.value.1, P x := by
  fun_induction itemsUntil close item ts hts with
  | case1 ts hts hclose =>
    refine .bind (.trivial _) fun r _ => .pure ?_
    exact fun x hx => nomatch hx
  | case2 ts hts hclose ih =>
    refine .bind (h ts hts) fun first hfirst => ?_
    refine .bind (ih first.rest first.shorter) fun others hothers => .pure ?_
    exact List.forall_mem_cons.mpr ⟨hfirst, hothers⟩

/-- The same if there is at least one item. -/
theorem ensures_someItemsUntil {close : Mark} {n : Nat} {item : ItemReader α n}
    (h : ∀ ts hts, Ensures (item ts hts) fun r => P r.value) (ts : List Token)
    (hts : ts.length < n) :
    Ensures (someItemsUntil close item ts hts) fun r => ∀ x ∈ r.value.1, P x := by
  refine .bind (h ts hts) fun first hfirst => ?_
  refine .bind (ensures_itemsUntil h first.rest _) fun others hothers => .pure ?_
  exact List.forall_mem_cons.mpr ⟨hfirst, hothers⟩

/-- The same if the items, with the marks around them, may be missing. -/
theorem ensures_optionalItems {«open» close : Mark}
    {item : (ts : List Token) → Except Refusal (Read α ts)}
    (h : ∀ ts, Ensures (item ts) fun r => P r.value) (ts : List Token) :
    Ensures (optionalItems «open» close item ts) fun r => ∀ x ∈ r.value, P x := by
  unfold optionalItems
  split
  · exact .pure fun x hx => absurd hx List.not_mem_nil
  · refine .bind (.trivial _) fun r _ => ?_
    refine .bind (ensures_someItemsUntil (fun ts _ => h ts) r.rest _) fun items hitems => .pure ?_
    exact hitems

/-- The same for items each of which begins with a mark. -/
theorem ensures_itemsWhile {m : Mark} {item : (ts : List Token) → Except Refusal (Read α ts)}
    (h : ∀ ts, Ensures (item ts) fun r => P r.value) (ts : List Token) :
    Ensures (itemsWhile m item ts) fun r => ∀ x ∈ r.value, P x := by
  fun_induction itemsWhile m item ts with
  | case1 ts hm => exact .pure fun x hx => nomatch hx
  | case2 ts hm ih =>
    refine .bind (h ts) fun first hfirst => ?_
    refine .bind (ih first.rest first.shorter) fun others hothers => .pure ?_
    exact List.forall_mem_cons.mpr ⟨hfirst, hothers⟩

/-- The same for items up to the end of the text. -/
theorem ensures_allItems {item : (ts : List Token) → Except Refusal (Read α ts)}
    (h : ∀ ts, Ensures (item ts) fun r => P r.value) (ts : List Token) :
    Ensures (allItems item ts) fun items => ∀ x ∈ items, P x := by
  fun_induction allItems item ts with
  | case1 ts ih =>
    refine .bind (h ts) fun first hfirst => ?_
    obtain ⟨value, rest, hshorter⟩ := first
    simp only
    split
    · exact .pure (List.forall_mem_singleton.mpr hfirst)
    · refine .bind (ih rest hshorter) fun others hothers => .pure ?_
      exact List.forall_mem_cons.mpr ⟨hfirst, hothers⟩

/-- The items that make up a text are what each of them is read as. -/
theorem ensures_wholeText {item : (ts : List Token) → Except Refusal (Read α ts)}
    (h : ∀ ts, Ensures (item ts) fun r => P r.value) (text : String) :
    Ensures (wholeText item text) fun items => ∀ x ∈ items, P x := by
  unfold wholeText
  simp only
  split
  · next items hitems =>
    split
    · intro read hread
      obtain rfl := Except.ok.inj hread
      exact ensures_allItems h _ _ hitems
    · exact .error _
  · exact .error _
  · exact .error _

/-! ## Values -/

/-- A value without parts is sorted. -/
theorem sorted_leaf {v : Value} (hfields : (Node.ofValue v).FieldsInOrder)
    (hchildren : (Node.ofValue v).children = []) : (Node.ofValue v).Sorted :=
  Node.sorted_of_children hfields fun c hc => by simp [hchildren] at hc

/-- The values that are read are sorted. -/
theorem ensures_value (constant : Bool) : ∀ ts : List Token,
    Ensures (value constant ts) fun r => (Node.ofValue r.value).Sorted
  | [] => by
    rw [value]
    exact .error _
  | t :: rest => by
    rw [value]
    simp only
    split
    -- values without parts
    iterate 7 exact .pure (sorted_leaf trivial rfl)
    · split
      · exact .error _
      · exact .bind (.trivial _) fun r _ => .pure (sorted_leaf trivial rfl)
    · refine .bind (ensures_itemsUntil (P := fun v => (Node.ofValue v).Sorted) ?_ rest _)
        fun items hitems => .pure ?_
      · exact fun ts hts => ensures_value constant ts
      · refine Node.sorted_of_children trivial fun c hc => ?_
        obtain ⟨v, hv, rfl⟩ := List.mem_map.mp hc
        exact hitems v hv
    · refine .bind (ensures_itemsUntil (P := fun f => (Node.objectField f).Sorted) ?_ rest _)
        fun fields hfields => .pure (Node.sorted_ofFields hfields)
      intro ts hts
      refine .bind (.trivial _) fun key _ => ?_
      refine .bind (.trivial _) fun colon _ => ?_
      have hshorter : colon.rest.length < (t :: rest).length :=
        Nat.lt_trans (Nat.lt_trans colon.shorter key.shorter) hts
      refine .bind (ensures_value constant colon.rest) fun v hv => .pure ?_
      exact Node.sorted_of_children trivial fun c hc => List.mem_singleton.mp hc ▸ hv
    · exact .error _
termination_by ts => ts.length
decreasing_by all_goals assumption

/-- The arguments that are read are sorted. -/
theorem ensures_argument (ts : List Token) :
    Ensures (argument ts) fun r => (Node.argument r.value).Sorted := by
  refine .bind (.trivial _) fun key _ => ?_
  refine .bind (.trivial _) fun colon _ => ?_
  exact .bind (ensures_value false colon.rest) fun v hv => .pure (Node.sorted_argument hv)

/-- Arguments between brackets are sorted, if there are any. -/
theorem ensures_arguments (ts : List Token) :
    Ensures (arguments ts) fun r => ∀ a ∈ r.value, (Node.argument a).Sorted :=
  ensures_optionalItems ensures_argument ts

/-- The directives that are read are sorted. -/
theorem ensures_directive (ts : List Token) :
    Ensures (directive ts) fun r => (Node.directive r.value).Sorted := by
  refine .bind (.trivial _) fun place _ => ?_
  refine .bind (.trivial _) fun name _ => ?_
  exact .bind (ensures_arguments name.rest) fun args hargs => .pure (Node.sorted_directive hargs)

/-- So are all directives that stand one after the other. -/
theorem ensures_directives (ts : List Token) :
    Ensures (directives ts) fun r => ∀ d ∈ r.value, (Node.directive d).Sorted :=
  ensures_itemsWhile ensures_directive ts

/-- A default value is sorted, if there is one. -/
theorem ensures_defaultValue (ts : List Token) :
    Ensures (defaultValue ts) fun r => ∀ v ∈ r.value, (Node.ofValue v).Sorted := by
  unfold defaultValue
  split
  · exact .pure fun v hv => nomatch hv
  · refine .bind (ensures_value true _) fun v hv => .pure ?_
    rintro _ ⟨⟩
    exact hv

/-! ## Selections and definitions -/

/-- What stands before the selection set of a field is sorted. -/
theorem ensures_fieldHead (ts : List Token) :
    Ensures (fieldHead ts) fun r => (∀ a ∈ r.value.arguments, (Node.argument a).Sorted) ∧
      ∀ d ∈ r.value.directives, (Node.directive d).Sorted := by
  refine .bind (.trivial _) fun name _ => ?_
  refine .bind (ensures_arguments name.rest) fun args hargs => ?_
  exact .bind (ensures_directives args.rest) fun ds hds => .pure ⟨hargs, hds⟩

/-- Whether what comes after the dots is sorted: a spread, or the directives of an inline
fragment. -/
def SpreadSorted : FragmentSpread ⊕ FragmentHead → Prop
  | .inl spread => (Node.fragmentSpread spread).Sorted
  | .inr head => ∀ d ∈ head.directives, (Node.directive d).Sorted

/-- What stands behind the dots, before a selection set, is sorted. -/
theorem ensures_afterDots (ts : List Token) :
    Ensures (afterDots ts) fun r => SpreadSorted r.value := by
  unfold afterDots
  split
  · exact .error _
  · next t ts =>
    split
    · refine .bind (.trivial _) fun condition _ => ?_
      exact .bind (ensures_directives condition.rest) fun ds hds => .pure hds
    · exact .bind (ensures_directives ts) fun ds hds => .pure (Node.sorted_fragmentSpread hds)
    · refine .bind (ensures_directive (t :: ts)) fun first hfirst => ?_
      refine .bind (ensures_directives first.rest) fun others hothers => .pure ?_
      exact List.forall_mem_cons.mpr ⟨hfirst, hothers⟩
    · exact .error _

mutual

/-- The selection sets that are read are sorted. -/
theorem ensures_selectionSet (ts : List Token) :
    Ensures (selectionSet ts) fun r => (Node.selectionSet r.value).Sorted := by
  rw [selectionSet]
  refine .bind (.trivial _) fun place _ => ?_
  refine .bind (ensures_someItemsUntil (P := fun x => (Node.ofSelection x).Sorted)
    (fun ts' hts => ensures_selection ts') place.rest _) fun items hitems => .pure ?_
  exact Node.sorted_selectionSet hitems
termination_by ts.length

/-- So are the selections in them, which contain selection sets again. -/
theorem ensures_selection (ts : List Token) :
    Ensures (selection ts) fun r => (Node.ofSelection r.value).Sorted := by
  rw [selection]
  split
  · refine .bind (.trivial _) fun dots _ => ?_
    have hdots := dots.shorter
    simp only
    split
    -- after the dots comes a selection set, or a spread or the head of a fragment
    · refine .bind (ensures_selectionSet dots.rest) fun set hset => .pure ?_
      exact Node.sorted_inlineFragment (fun d hd => nomatch hd) hset
    · refine .bind (ensures_afterDots dots.rest) fun spread hspread => ?_
      have hshorter := Nat.lt_trans spread.shorter hdots
      obtain ⟨value, rest, _⟩ := spread
      cases value with
      | inl spread => exact .pure hspread
      | inr head =>
        exact .bind (ensures_selectionSet rest) fun set hset =>
          .pure (Node.sorted_inlineFragment hspread hset)
  · refine .bind (ensures_fieldHead ts) fun head hhead => ?_
    have hhead' := head.shorter
    simp only
    split
    · refine .bind (ensures_selectionSet head.rest) fun set hset => .pure ?_
      exact Node.sorted_field hhead.1 hhead.2 hset
    · refine .pure (Node.sorted_field hhead.1 hhead.2 ?_)
      exact Node.sorted_selectionSet fun x hx => nomatch hx
termination_by ts.length

end

/-- The definitions of variables that are read are sorted. -/
theorem ensures_variableDefinition (ts : List Token) :
    Ensures (variableDefinition ts) fun r => (Node.variableDefinition r.value).Sorted := by
  refine .bind (.trivial _) fun dollar _ => ?_
  refine .bind (.trivial _) fun name _ => ?_
  refine .bind (.trivial _) fun colon _ => ?_
  refine .bind (.trivial _) fun type _ => ?_
  refine .bind (ensures_defaultValue type.rest) fun default hdefault => .pure ?_
  exact Node.sorted_variableDefinition hdefault

/-- The operations that are read are sorted. -/
theorem ensures_operation (place : Position) (kind : OperationKind) (ts : List Token) :
    Ensures (operation place kind ts) fun r => (Node.ofDefinition r.value).Sorted := by
  refine .bind (ensures_optionalItems (P := fun d => (Node.variableDefinition d).Sorted)
    ensures_variableDefinition _) fun declared hdeclared => ?_
  refine .bind (ensures_directives declared.rest) fun ds hds => ?_
  refine .bind (ensures_selectionSet ds.rest) fun set hset => .pure ?_
  exact Node.sorted_operationDefinition hdeclared hds hset

/-- The fragments that are read are sorted. -/
theorem ensures_fragment (place : Position) (ts : List Token) :
    Ensures (fragment place ts) fun r => (Node.ofDefinition r.value).Sorted := by
  refine .bind (.trivial _) fun name _ => ?_
  refine .bind (.trivial _) fun on _ => ?_
  refine .bind (.trivial _) fun condition _ => ?_
  refine .bind (ensures_directives condition.rest) fun ds hds => ?_
  refine .bind (ensures_selectionSet ds.rest) fun set hset => .pure ?_
  exact Node.sorted_fragmentDefinition hds hset

/-- The definitions that are read are sorted, also an operation that is a mere selection set. -/
theorem ensures_definition (ts : List Token) :
    Ensures (definition ts) fun r => (Node.ofDefinition r.value).Sorted := by
  unfold definition
  split
  · exact .error _
  · next t rest =>
    split
    · exact .bind (ensures_operation t.position .query rest) fun d hd => .pure hd
    · exact .bind (ensures_operation t.position .mutation rest) fun d hd => .pure hd
    · exact .bind (ensures_operation t.position .subscription rest) fun d hd => .pure hd
    · exact .bind (ensures_fragment t.position rest) fun d hd => .pure hd
    · refine .bind (ensures_selectionSet (t :: rest)) fun set hset => .pure ?_
      exact Node.sorted_operationDefinition (fun v hv => absurd hv List.not_mem_nil)
        (fun d hd => absurd hd List.not_mem_nil) hset

end Reading

/-- In a document that has been read, the fields of every object come in the order of their names,
each name once. -/
theorem Document.sorted_of_read {text : String} {doc : Document} (h : read text = .ok doc) :
    (Node.document doc).Sorted := by
  unfold read at h
  cases hread : Reading.wholeText Reading.definition text with
  | error place =>
    rw [hread] at h
    contradiction
  | ok definitions =>
    rw [hread] at h
    obtain rfl := Except.ok.inj h
    exact Node.sorted_document (Reading.ensures_wholeText Reading.ensures_definition text _ hread)

end GraphQLCheck
