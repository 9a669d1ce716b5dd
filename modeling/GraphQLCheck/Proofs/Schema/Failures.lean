import GraphQLCheck.Proofs.Schema.SourceFiles
import GraphQLCheck.Proofs.Schema.TrueErrors

/-!
# Why no schema can be built of some sources

Loading sources takes their definitions one after the other, and stops at the first one that cannot
be taken. Building a schema takes the introspection types and does what has been put off until all
definitions are known. `StopsAfter` says what has been taken when this ends with an error.

Main statement: an error that is not about reading the sources is true of what has been taken
(`build_errors_true`).
-/

namespace GraphQLCheck

open TypeSystem (SchemaBlock)

namespace Builder

/-- Takes definitions of some sources, one after the other. -/
def takeAll (b : Builder) (ds : List WrittenDefinition) : Except BuildError Builder :=
  ds.foldlM (fun b x => b.addDefinition x.1 x.2) b

/-- What is written at the end is taken at the end. -/
theorem takeAll_append (b : Builder) (ds ds' : List WrittenDefinition) :
    b.takeAll (ds ++ ds') = b.takeAll ds >>= fun b => b.takeAll ds' :=
  List.foldlM_append

/-- The definitions of a source are taken under its path. -/
theorem addDefinitions_eq_takeAll (b : Builder) (path : Path) (ds : List TypeSystem.Definition) :
    b.addDefinitions path ds = b.takeAll (ds.map (path, ·)) :=
  addDefinitions_eq b path ds

/-- A builder with another number for the next source without a path. -/
def withNumber (n : UInt16) (b : Builder) : Builder := { b with nextUnnamed := n }

section Number

variable (n : UInt16) (b : Builder)

/-- The entries of a schema block are taken whatever the number is. -/
private theorem declareNamedRoot_withNumber (location : SourceLocation)
    (entry : OperationKind × Option String) :
    (b.withNumber n).declareNamedRoot location entry =
      (b.declareNamedRoot location entry).map (withNumber n) := by
  obtain ⟨kind, type⟩ := entry
  cases type with
  | none => rfl
  | some type =>
    have hroot : (b.withNumber n).root? kind = b.root? kind := by cases kind <;> rfl
    simp only [declareNamedRoot, declareRoot, hroot]
    cases b.root? kind with
    | some first => rfl
    | none => cases kind <;> rfl

/-- Roots are compared whatever the number is. -/
private theorem checkDistinctRoots_withNumber (kind kind' : OperationKind) :
    (b.withNumber n).checkDistinctRoots kind kind' = b.checkDistinctRoots kind kind' := by
  cases kind <;> cases kind' <;> rfl

/-- Schema blocks are taken whatever the number is. -/
private theorem addSchemaBlock_withNumber (path : Path) (d : SchemaBlock) :
    (b.withNumber n).addSchemaBlock path d = (b.addSchemaBlock path d).map (withNumber n) := by
  simp only [addSchemaBlock, foldlM_map_state (declareNamedRoot_withNumber n · _)]
  cases List.foldlM (declareNamedRoot (.written path d.position)) b _ with
  | error e => rfl
  | ok b' =>
    simp only [Except.map, bind, Except.bind, checkDistinctRoots_withNumber]
    cases b'.checkDistinctRoots .query .mutation with
    | error e => rfl
    | ok _ =>
      cases b'.checkDistinctRoots .query .subscription with
      | error e => rfl
      | ok _ => cases b'.checkDistinctRoots .mutation .subscription <;> rfl

/-- Definitions are taken whatever the number of the next source without a path is. -/
theorem addDefinition_withNumber (x : WrittenDefinition) :
    (b.withNumber n).addDefinition x.1 x.2 = (b.addDefinition x.1 x.2).map (withNumber n) := by
  obtain ⟨path, d⟩ := x
  -- no operation looks at the number, and none changes it
  have htypes : (b.withNumber n).types = b.types := rfl
  have hdirectives : (b.withNumber n).directives = b.directives := rfl
  cases d with
  | schema d => exact addSchemaBlock_withNumber n b path d
  | type d =>
    simp only [addDefinition, addType, htypes]
    cases NamedType.ofDefinition path d with
    | error e => rfl
    | ok t =>
      simp only [bind, Except.bind]
      cases b.types.get? d.name <;> rfl
  | extension e =>
    simp only [addDefinition, addExtension, htypes]
    cases b.types.get? e.name with
    | none => rfl
    | some t =>
      simp only
      cases t.extend path e <;> rfl
  | directive d =>
    simp only [addDefinition, addDirective, hdirectives]
    split
    · rfl
    · split
      · rfl
      · cases b.directives.get? d.name <;> rfl

/-- The number stays as it is when definitions are taken. -/
theorem takeAll_withNumber (ds : List WrittenDefinition) :
    (b.withNumber n).takeAll ds = (b.takeAll ds).map (withNumber n) :=
  foldlM_map_state (addDefinition_withNumber n)

/-- Loading texts is taking what they define, unless a text is come to that cannot be read. -/
theorem foldlM_load_withNumber (texts : List (Option Path × String)) :
    (∃ path place, texts.foldlM (fun b read => b.load read.1 read.2) (b.withNumber n) =
      .error (.unreadableSource path place)) ∨
    ∃ m, texts.foldlM (fun b read => b.load read.1 read.2) (b.withNumber n) =
      (b.takeAll (writtenFrom n texts)).map (withNumber m) := by
  induction texts generalizing n b with
  | nil => exact .inr ⟨n, rfl⟩
  | cons read texts ih =>
    obtain ⟨path, text⟩ := read
    -- the path that is taken for the text, and the number that comes next
    obtain ⟨path', n', htake, hwritten⟩ : ∃ path' n',
        (b.withNumber n).takePath path = (path', b.withNumber n') ∧
        writtenFrom n ((path, text) :: texts) =
          (definitionsOf text).map (path', ·) ++ writtenFrom n' texts := by
      cases path with
      | none => exact ⟨_, _, rfl, rfl⟩
      | some path => exact ⟨_, _, rfl, rfl⟩
    rw [List.foldlM_cons, load, htake]
    simp only
    cases hread : TypeSystem.Document.read text with
    | error place => exact .inl ⟨path', place, rfl⟩
    | ok doc =>
      have hdefinitions : definitionsOf text = doc.definitions := by rw [definitionsOf, hread]
      rw [hwritten, hdefinitions, takeAll_append]
      simp only [addDefinitions_eq_takeAll, takeAll_withNumber]
      cases b.takeAll (doc.definitions.map (path', ·)) with
      | error e => exact .inr ⟨n', rfl⟩
      | ok b₁ => exact ih n' b₁

end Number

end Builder

/-- Whether an error is about a file or a text that cannot be read. -/
def BuildError.isReadError : BuildError → Bool
  | unreadableSource .. | unreadableFile _ => true
  | _ => false

/-- Whether a definition cannot be taken, and is the first one: all that are written before it are
taken. -/
def RejectedAfter (before : List WrittenDefinition) (x : WrittenDefinition) (e : BuildError) :
    Prop :=
  ∃ b, Builder.empty.takeAll before = .ok b ∧ b.addDefinition x.1 x.2 = .error e

/-- What has been taken when some sources fail with an error, whatever the error is if all of it has
been taken. -/
inductive StopsAfter (fs : FileSystem) (sources : List SchemaSource) (e : BuildError) :
    List WrittenDefinition → Prop where
  /-- A definition of a source cannot be taken. No source after that one has been read. -/
  | loading {read rest : List SchemaSource} {texts : List (Option Path × String)}
    {before after : List WrittenDefinition} {x : WrittenDefinition}
    (hsources : sources = read ++ rest) (hread : List.Forall₂ fs.Reads read texts)
    (hwritten : writtenFrom 0 texts = before ++ x :: after) (hx : RejectedAfter before x e) :
    StopsAfter fs sources e (before ++ [x])
  /-- All sources have been loaded, and an introspection type cannot be taken. -/
  | introspection {texts : List (Option Path × String)} {before after : List WrittenDefinition}
    {x : WrittenDefinition} (hread : List.Forall₂ fs.Reads sources texts)
    (hwritten : withIntrospection (writtenFrom 0 texts) = before ++ x :: after)
    (hx : RejectedAfter before x e) : StopsAfter fs sources e (before ++ [x])
  /-- All definitions have been taken, with those of the introspection types. -/
  | finishing {texts : List (Option Path × String)} {b : Builder}
    (hread : List.Forall₂ fs.Reads sources texts)
    (hall : Builder.empty.takeAll (withIntrospection (writtenFrom 0 texts)) = .ok b) :
    StopsAfter fs sources e (withIntrospection (writtenFrom 0 texts))

section Fails

variable {fs : FileSystem} {sources : List SchemaSource} {e : BuildError}

/-- The error with which a definition is rejected is true of it and of what comes before it. -/
theorem RejectedAfter.trueOf {before : List WrittenDefinition} {x : WrittenDefinition}
    (h : RejectedAfter before x e) : e.TrueOf (before ++ [x]) := by
  obtain ⟨b, hbefore, hx⟩ := h
  have hb : Loaded before b := Loaded.empty.foldlM hbefore
  exact hb.trueOf_step hx

/-- Of definitions that cannot all be taken there is one that is rejected. -/
theorem exists_rejectedAfter {ds : List WrittenDefinition}
    (h : Builder.empty.takeAll ds = .error e) :
    ∃ before x after, ds = before ++ x :: after ∧ RejectedAfter before x e := by
  obtain ⟨before, x, after, b, hds, hbefore, hx⟩ := foldlM_eq_error h
  exact ⟨before, x, after, hds, b, hbefore, hx⟩

/-- A source that cannot be loaded cannot be read, or its text cannot be loaded. -/
theorem Builder.of_loadSource_error {b : Builder} {source : SchemaSource}
    (h : b.loadSource fs source = .error e) (he : e.isReadError = false) :
    ∃ read, fs.Reads source read ∧ b.load read.1 read.2 = .error e := by
  cases source with
  | text path text => exact ⟨(path, text), rfl, h⟩
  | file path =>
    rw [loadSource, loadFile] at h
    cases hfile : fs.readText path with
    | error r =>
      rw [hfile] at h
      obtain rfl := Except.error.inj h
      cases he
    | ok text =>
      rw [hfile] at h
      exact ⟨(some path, text), ⟨rfl, FileSystem.readText_eq_ok_iff.1 hfile⟩, h⟩

/-- Sources that cannot be loaded are read up to one whose text cannot be loaded. -/
theorem Builder.of_foldlM_loadSource_error {b : Builder}
    (h : sources.foldlM (loadSource fs) b = .error e) (he : e.isReadError = false) :
    ∃ read rest texts, sources = read ++ rest ∧ List.Forall₂ fs.Reads read texts ∧
      texts.foldlM (fun b read => b.load read.1 read.2) b = .error e := by
  obtain ⟨before, source, after, b', rfl, hbefore, hsource⟩ := foldlM_eq_error h
  obtain ⟨texts, hreads, hload⟩ := foldlM_loadSource_eq_ok_iff.1 hbefore
  obtain ⟨read, hread, hfails⟩ := of_loadSource_error hsource he
  refine ⟨before ++ [source], after, texts ++ [read], by simp, ?_, ?_⟩
  · exact List.rel_append hreads (.cons hread .nil)
  · rw [List.foldlM_append]
    refine bind_eq_error.2 (.inr ⟨b', hload, ?_⟩)
    rw [List.foldlM_cons]
    exact bind_eq_error.2 (.inl hfails)

/-- Sources that cannot be loaded, though all of them that matter can be read. -/
theorem StopsAfter.of_load_error (h : sources.foldlM (Builder.loadSource fs) .empty = .error e)
    (he : e.isReadError = false) : ∃ ds, StopsAfter fs sources e ds ∧ e.TrueOf ds := by
  obtain ⟨read, rest, texts, hsources, hread, h⟩ := Builder.of_foldlM_loadSource_error h he
  rcases Builder.empty.foldlM_load_withNumber 0 texts with ⟨path, place, herror⟩ | ⟨n, hn⟩
  · obtain rfl := Except.error.inj (h.symm.trans herror)
    exact nomatch he
  · obtain ⟨before, x, after, hwritten, hx⟩ :=
      exists_rejectedAfter (map_eq_error.1 (hn.symm.trans h))
    exact ⟨_, .loading hsources hread hwritten hx, hx.trueOf⟩

/-- Sources that have been loaded and make up no schema. -/
theorem StopsAfter.of_build_error {b : Builder}
    (hload : sources.foldlM (Builder.loadSource fs) .empty = .ok b) (h : b.build = .error e) :
    ∃ ds, StopsAfter fs sources e ds ∧ e.TrueOf ds := by
  obtain ⟨texts, hread, hload⟩ := Builder.foldlM_loadSource_eq_ok_iff.1 hload
  have hb : Loaded (writtenFrom 0 texts) b := Loaded.empty.foldlM_load hload
  obtain ⟨b₁, n, hb₁, rfl⟩ : ∃ b₁ n, Builder.empty.takeAll (writtenFrom 0 texts) = .ok b₁ ∧
      b₁.withNumber n = b := by
    rcases Builder.empty.foldlM_load_withNumber 0 texts with ⟨path, place, herror⟩ | ⟨n, hn⟩
    · exact nomatch hload.symm.trans herror
    · obtain ⟨b₁, hb₁, hb⟩ := map_eq_ok.1 (hn.symm.trans hload)
      exact ⟨b₁, n, hb₁, hb⟩
  -- the introspection types are taken after all that is written
  have hall : (b₁.withNumber n).addDefinitions Introspection.path Introspection.definitions =
      (Builder.empty.takeAll (withIntrospection (writtenFrom 0 texts))).map
        (Builder.withNumber n) := by
    rw [Builder.addDefinitions_eq_takeAll, Builder.takeAll_withNumber, withIntrospection,
      Builder.takeAll_append, hb₁]
    rfl
  rw [Builder.build_eq_checked] at h
  rcases bind_eq_error.1 h with hrejected | ⟨b', hb', h⟩
  · obtain ⟨before, x, after, hwritten, hx⟩ :=
      exists_rejectedAfter (map_eq_error.1 (hall.symm.trans hrejected))
    exact ⟨_, .introspection hread hwritten hx, hx.trueOf⟩
  · obtain ⟨b₂, hb₂, -⟩ := map_eq_ok.1 (hall.symm.trans hb')
    rw [Builder.addDefinitions_eq] at hb'
    have hloaded : Loaded (withIntrospection (writtenFrom 0 texts)) b' := hb.foldlM hb'
    exact ⟨_, .finishing hread hb₂, hloaded.trueOf_finish h⟩

end Fails

/-- An error of loading some sources and building a schema of them, unless it is about reading them,
is true of what has been taken of them. -/
theorem build_errors_true (fs : FileSystem) (sources : List SchemaSource) {e : BuildError}
    (h : (sources.foldlM (Builder.loadSource fs) .empty >>= Builder.build) = .error e)
    (he : e.isReadError = false) : ∃ ds, StopsAfter fs sources e ds ∧ e.TrueOf ds := by
  rcases bind_eq_error.1 h with h | ⟨b, hload, h⟩
  · exact StopsAfter.of_load_error h he
  · exact StopsAfter.of_build_error hload h

namespace ExtendedBefore

/-- An extension of a union. -/
def extension : SchemaSource := .text (some ⟨"extension.graphql"⟩) "extend union U = A"

/-- The union, with the same member. -/
def definition : SchemaSource := .text none "type Query { u: U }\ntype A { f: Int }\nunion U = A"

/-- The extension is loaded before the definition. -/
def sources : List SchemaSource := [extension, definition]

/-- Where the member is listed: first the definition, into which the extension is merged. -/
def places : List SourceLocation :=
  [.written (Builder.unnamedPath 0) ⟨3, 1⟩, .written ⟨"extension.graphql"⟩ ⟨1, 8⟩]

/-- A file system without files. -/
def noFiles : FileSystem := fun _ => none

private theorem failsWith_places :
    failsWith (fun e => !e.isReadError && decide (e.locations = places))
      (sources.foldlM (Builder.loadSource noFiles) .empty >>= Builder.build) = true := by
  decide +kernel

end ExtendedBefore

open ExtendedBefore in
/-- A member that an extension lists again is cited after the one in the definition, though the
extension has been loaded first. -/
theorem build_errors_true_extendedBefore : ∃ e : BuildError,
    (sources.foldlM (Builder.loadSource noFiles) .empty >>= Builder.build) = .error e ∧
      e.isReadError = false ∧ e.locations = places ∧
      ∃ ds, StopsAfter noFiles sources e ds ∧ e.TrueOf ds := by
  obtain ⟨e, herror, he⟩ := exists_of_failsWith failsWith_places
  obtain ⟨hread, hplaces⟩ := Bool.and_eq_true_iff.1 he
  have hread : e.isReadError = false := by simpa using hread
  have htrue := build_errors_true noFiles sources herror hread
  exact ⟨e, herror, hread, of_decide_eq_true hplaces, htrue⟩

end GraphQLCheck
