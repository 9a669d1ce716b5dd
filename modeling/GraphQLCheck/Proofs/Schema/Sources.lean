import GraphQLCheck.Proofs.Schema.Closed
import GraphQLCheck.Proofs.Text.JsonText
import GraphQLCheck.Proofs.Text.RawText

/-!
# What the texts of some sources define

A schema is built of texts, each with a path if it has one. `definitionsIn` lists what they define,
whatever paths are taken for them, and `writtenFrom` lists it with these paths. The path that is
taken for a text without one has two components, the second of which is a number
(`Builder.components_unnamedPath`).

Main statements: loading sources leaves a builder with what they write, under the paths that are
taken for them (`Loaded.foldlM_load`), so that a schema that has been built of some sources has been
built of what they write (`exists_loaded_writtenFrom`), and a single source whose definitions make
up a schema is enough for one (`exists_build_of_source`).
-/

namespace GraphQLCheck

section Paths

/-- The byte of a digit is no slash. -/
theorem Path.slash_not_mem_of_isDigit {c : Char} (hc : c.isDigit = true) :
    slash ∉ String.utf8EncodeChar c := by
  simp only [Char.isDigit, Bool.and_eq_true, decide_eq_true_eq] at hc
  have hlow : 48 ≤ c.val.toNat := hc.1
  have hhigh : c.val.toNat ≤ 57 := hc.2
  rw [String.utf8EncodeChar, if_pos (by omega), List.mem_singleton, slash, ← UInt8.toNat_inj,
    UInt8.toNat_ofNat']
  intro h
  have hcode : 47 = c.val.toNat % 2 ^ 8 := h
  omega

/-- The bytes of a path that is taken for a source without one. -/
theorem Builder.bytes_unnamedPath (n : UInt16) :
    (unnamedPath n).raw.bytes = (RawText.ofText "str:").bytes ++ Path.slash ::
      ([] ++ Path.slash :: (RawText.ofText (toString n.toNat)).bytes) := by
  show (RawText.ofText ("str://" ++ toString n.toNat)).bytes = _
  rw [RawText.bytes_ofText_append]
  rfl

/-- The pieces of a path that is taken for a source without one. -/
theorem Builder.pieces_unnamedPath (n : UInt16) :
    (unnamedPath n).pieces = [.ofText "str:", .ofText "", .ofText (toString n.toNat)] := by
  have hnumber : Path.slash ∉ (RawText.ofText (toString n.toNat)).bytes := by
    intro hslash
    obtain ⟨c, hc, hslash⟩ := List.mem_flatMap.1 hslash
    exact Path.slash_not_mem_of_isDigit (Json.isDigit_of_mem_toString hc) hslash
  have hsingle {bs : List UInt8} (h : Path.slash ∉ bs) : bs.splitOn Path.slash = [bs] :=
    List.splitOnP_eq_singleton fun b hb => beq_false_of_ne fun heq => h (heq ▸ hb)
  rw [Path.pieces, bytes_unnamedPath, List.splitOn_append_cons_of_beq _ _ (by decide),
    List.splitOn_append_cons_of_beq _ _ (by decide), hsingle hnumber]
  rfl

/-- The components of a path that is taken for a source without one. -/
theorem Builder.components_unnamedPath (n : UInt16) :
    (unnamedPath n).components = [.name "str:", .name (.ofText (toString n.toNat))] := by
  -- a number begins with a digit, so it is neither empty nor made of dots
  have hne {s : String} (hs : s.toList.head?.any Char.isDigit = false) :
      RawText.ofText (toString n.toNat) ≠ .ofText s := by
    intro heq
    obtain rfl := RawText.ofText_injective heq
    obtain ⟨c, cs, hc⟩ := Json.exists_toString_eq_cons n.toNat
    have hdigit : c.isDigit = true := Json.isDigit_of_mem_toString (hc ▸ List.mem_cons_self)
    rw [hc, List.head?_cons, Option.any_some, hdigit] at hs
    exact nomatch hs
  have hnumber : Path.componentOfPiece? (.ofText (toString n.toNat)) =
      some (.name (.ofText (toString n.toNat))) := by
    rw [Path.componentOfPiece?, decide_eq_false (hne (by decide)),
      decide_eq_false (hne (by decide)), Bool.or_false, if_neg Bool.false_ne_true,
      if_neg (hne (by decide))]
  have hrelative : (unnamedPath n).isAbsolute = false := by
    rw [Path.isAbsolute, bytes_unnamedPath]
    rfl
  have hfirst : (unnamedPath n).segments.head? = some "str:" := by
    rw [Path.segments, pieces_unnamedPath, List.map_cons, List.head?_cons, RawText.text_ofText]
  rw [Path.components, hrelative, hfirst, pieces_unnamedPath,
    List.filterMap_cons_some (b := .name (.ofText "str:")) (by decide),
    List.filterMap_cons_none (by decide), List.filterMap_cons_some hnumber, List.filterMap_nil]
  rfl

end Paths

/-- What is defined in the text of a source, if it can be read. -/
def definitionsOf (source : String) : List TypeSystem.Definition :=
  match TypeSystem.Document.read source with
  | .ok doc => doc.definitions
  | .error _ => []

/-- What is defined in some sources, one after the other. -/
def definitionsIn (sources : List (Option Path × String)) : List TypeSystem.Definition :=
  sources.flatMap fun source => definitionsOf source.2

/-- What some sources write, each under the path that is taken for it, if `n` is the number of the
next source without a path. -/
def writtenFrom (n : UInt16) : List (Option Path × String) → List WrittenDefinition
  | [] => []
  | (some path, source) :: sources =>
    (definitionsOf source).map (path, ·) ++ writtenFrom n sources
  | (none, source) :: sources =>
    (definitionsOf source).map (Builder.unnamedPath n, ·) ++ writtenFrom (n + 1) sources

variable {b b' : Builder}

/-- Declaring the root that is named, if one is, does not count as a source. -/
private theorem nextUnnamed_declareNamedRoot {location : SourceLocation}
    {entry : OperationKind × Option String} (hok : b.declareNamedRoot location entry = .ok b') :
    b'.nextUnnamed = b.nextUnnamed := by
  obtain ⟨kind, type⟩ := entry
  rcases Builder.of_declareNamedRoot hok with ⟨-, rfl⟩ | ⟨name, -, -, rfl⟩
  · rfl
  · cases kind <;> rfl

/-- Taking a definition does not count as a source. -/
theorem nextUnnamed_addDefinition {x : WrittenDefinition} (hok : b.addDefinition x.1 x.2 = .ok b') :
    b'.nextUnnamed = b.nextUnnamed := by
  obtain ⟨path, d⟩ := x
  cases d with
  | schema d =>
    obtain ⟨b₁, hroots, hok⟩ := bind_eq_ok.1 hok
    obtain ⟨_, -, hok⟩ := bind_eq_ok.1 hok
    obtain ⟨_, -, hok⟩ := bind_eq_ok.1 hok
    obtain ⟨_, -, hok⟩ := bind_eq_ok.1 hok
    obtain rfl := pure_eq_ok.1 hok
    exact foldlM_preserves (P := fun b₁ => b₁.nextUnnamed = b.nextUnnamed)
      (fun h hok => (nextUnnamed_declareNamedRoot hok).trans h) rfl hroots
  | type d =>
    obtain ⟨t, -, -, rfl⟩ := Builder.of_addType hok
    rfl
  | extension e =>
    rcases Builder.of_addExtension hok with ⟨t, t', -, -, rfl⟩ | ⟨-, rfl⟩ <;> rfl
  | directive d =>
    obtain ⟨-, -, rfl⟩ := Builder.of_addDirective hok
    rfl

/-- Loading a source counts it if it has no path. -/
theorem nextUnnamed_load {path : Option Path} {source : String}
    (hok : b.load path source = .ok b') :
    b'.nextUnnamed = (b.takePath path).2.nextUnnamed := by
  unfold Builder.load at hok
  simp only at hok
  split at hok
  · exact nomatch hok
  · rw [Builder.addDefinitions_eq] at hok
    exact foldlM_preserves (P := fun b₁ => b₁.nextUnnamed = (b.takePath path).2.nextUnnamed)
      (fun h hok => (nextUnnamed_addDefinition hok).trans h) rfl hok

/-- Loading sources leaves a builder with what they write, under the paths that are taken for them,
on top of what has been loaded before. -/
theorem Loaded.foldlM_load {ds : List WrittenDefinition} (h : Loaded ds b)
    {sources : List (Option Path × String)}
    (hok : sources.foldlM (fun b source => b.load source.1 source.2) b = .ok b') :
    Loaded (ds ++ writtenFrom b.nextUnnamed sources) b' := by
  induction sources generalizing ds b with
  | nil =>
    obtain rfl := pure_eq_ok.1 hok
    rw [writtenFrom, List.append_nil]
    exact h
  | cons source sources ih =>
    obtain ⟨path, source⟩ := source
    rw [List.foldlM_cons] at hok
    obtain ⟨b₁, hload, hok⟩ := bind_eq_ok.1 hok
    obtain ⟨doc, hdoc, hb₁⟩ := h.load hload
    have hdefinitions : definitionsOf source = doc.definitions := by rw [definitionsOf, hdoc]
    have hnext := nextUnnamed_load hload
    have hb' := ih hb₁ hok
    rw [hnext, List.append_assoc, ← hdefinitions] at hb'
    cases path <;> exact hb'

/-- Whatever paths are taken for the sources, they define the same. -/
theorem map_snd_writtenFrom (n : UInt16) (sources : List (Option Path × String)) :
    (writtenFrom n sources).map Prod.snd = definitionsIn sources := by
  have hsnd (path : Path) (ds : List TypeSystem.Definition) :
      (ds.map (path, ·)).map Prod.snd = ds := by
    rw [List.map_map]
    exact List.map_id ds
  induction sources generalizing n with
  | nil => rfl
  | cons source sources ih =>
    obtain ⟨path, source⟩ := source
    cases path with
    | none => rw [writtenFrom, List.map_append, hsnd, ih]; rfl
    | some path => rw [writtenFrom, List.map_append, hsnd, ih]; rfl

/-- What is written in some sources has the path of one of them, or one that is taken for a source
without a path. -/
theorem path_of_mem_writtenFrom {n : UInt16} {sources : List (Option Path × String)}
    {x : WrittenDefinition} (hx : x ∈ writtenFrom n sources) :
    (∃ source ∈ sources, source.1 = some x.1) ∨ ∃ m, x.1 = Builder.unnamedPath m := by
  induction sources generalizing n with
  | nil => exact nomatch hx
  | cons source sources ih =>
    have hrest {m : UInt16} (hx : x ∈ writtenFrom m sources) :
        (∃ source' ∈ source :: sources, source'.1 = some x.1) ∨
          ∃ m, x.1 = Builder.unnamedPath m :=
      (ih hx).imp_left fun ⟨source', hmem, hpath⟩ => ⟨source', List.mem_cons_of_mem _ hmem, hpath⟩
    obtain ⟨path, text⟩ := source
    cases path with
    | none =>
      rcases List.mem_append.1 hx with hx | hx
      · obtain ⟨d, -, rfl⟩ := List.mem_map.1 hx
        exact .inr ⟨n, rfl⟩
      · exact hrest hx
    | some path =>
      rcases List.mem_append.1 hx with hx | hx
      · obtain ⟨d, -, rfl⟩ := List.mem_map.1 hx
        exact .inl ⟨_, List.mem_cons_self, rfl⟩
      · exact hrest hx

variable {sources : List (Option Path × String)} {s : Schema}

/-- A schema that is built of some sources is built of what they write, under the paths that are
taken for them. -/
theorem exists_loaded_writtenFrom
    (hbuild : (sources.foldlM (fun b source => b.load source.1 source.2) Builder.empty >>=
      Builder.build) = .ok s) : ∃ b, Loaded (writtenFrom 0 sources) b ∧ b.build = .ok s := by
  obtain ⟨b, hload, hbuild⟩ := bind_eq_ok.1 hbuild
  exact ⟨b, Loaded.empty.foldlM_load hload, hbuild⟩

/-- A schema that is built of some sources is built of what they define, in load order. -/
theorem exists_loaded_of_build
    (hbuild : (sources.foldlM (fun b source => b.load source.1 source.2) Builder.empty >>=
      Builder.build) = .ok s) :
    ∃ ds b, Loaded ds b ∧ b.build = .ok s ∧ ds.map Prod.snd = definitionsIn sources := by
  obtain ⟨b, hb, hbuild⟩ := exists_loaded_writtenFrom hbuild
  exact ⟨writtenFrom 0 sources, b, hb, hbuild, map_snd_writtenFrom 0 sources⟩

/-- Whether a text can be read, and what it defines at some path makes up a schema. -/
def makesUpSchema (path : Path) (source : String) : Bool :=
  (TypeSystem.Document.read source).toOption.any fun doc =>
    decide (WellFormed (doc.definitions.map fun d => (path, d)))

/-- A schema can be built of a single source that makes up one. -/
theorem exists_build_of_source {path : Path} {source : String}
    (hpath : path.same Introspection.path = false) (h : makesUpSchema path source = true) :
    ∃ s, ([(some path, source)].foldlM (fun b source => b.load source.1 source.2) Builder.empty >>=
      Builder.build) = .ok s := by
  obtain ⟨doc, hdoc, h⟩ := exists_of_any_toOption h
  have hwellFormed : WellFormed (doc.definitions.map fun d => (path, d)) := of_decide_eq_true h
  obtain ⟨b, s, hload, hbuild⟩ :=
    hwellFormed.exists_build (List.forall_mem_map.2 fun _ _ => hpath)
  refine ⟨s, bind_eq_ok.2 ⟨b, ?_, hbuild⟩⟩
  rw [List.foldlM_cons, Builder.load_of_read hdoc]
  exact bind_eq_ok.2 ⟨b, hload, rfl⟩

end GraphQLCheck
