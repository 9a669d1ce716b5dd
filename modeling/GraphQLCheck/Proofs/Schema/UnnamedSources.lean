import GraphQLCheck.Proofs.Schema.Sources

/-!
# The paths that are taken for sources without one

A source without a path gets one with a number in it, and the number of the next such source is kept
in sixteen bits. `NumberedApart` says that the sources of a run are numbered as they should be: the
number counts the sources without a path before, and no two of them get paths that could be taken
for one another.

Main statements: the number is the count modulo 65536 (`nextUnnamed_foldlM_load`), paths with
different numbers are not the same (`Builder.unnamedPath_same_iff`), and the sources of a run are
numbered apart just if fewer than 65536 of them have no path (`numberedApart_iff`).
-/

namespace GraphQLCheck

/-- The number of sources without a path. -/
def unnamedCount (sources : List (Option Path × String)) : Nat :=
  sources.countP fun source => source.1.isNone

/-- Whether a source without a path comes at an index of some sources, and is loaded into the
builder `b` after those before it. Every builder has come about by loading sources into an empty
one. -/
structure ComesUnnamed (sources : List (Option Path × String)) (i : Nat) (b : Builder) : Prop where
  unnamed : ∃ text, sources[i]? = some (none, text)
  loaded : (sources.take i).foldlM (fun b source => b.load source.1 source.2) Builder.empty = .ok b

/-- Whether what is at one path can be told from what is at the other: the paths are not the same,
and so neither are places in the sources, nor the errors of sources that cannot be read. -/
structure Path.ToldApart (p q : Path) : Prop where
  paths : p.same q = false
  locations : ∀ place place',
    (SourceLocation.written p place).same (SourceLocation.written q place') = false
  errors : ∀ place place', BuildError.unreadableSource p place ≠ .unreadableSource q place'

/-- Whether those of some sources that have no path are numbered one by one, and told apart by the
paths that are taken for them. -/
structure NumberedApart (sources : List (Option Path × String)) : Prop where
  /-- The next number is larger by one. -/
  counts : ∀ i b, ComesUnnamed sources i b →
    (b.takePath none).2.nextUnnamed.toNat = b.nextUnnamed.toNat + 1
  /-- The path has the number of sources without a path that come before. -/
  paths : ∀ i b, ComesUnnamed sources i b →
    (b.takePath none).1 = ⟨s!"str://{unnamedCount (sources.take i)}"⟩
  apart : ∀ i j b b', i ≠ j → ComesUnnamed sources i b → ComesUnnamed sources j b' →
    (b.takePath none).1.ToldApart (b'.takePath none).1

section Paths

/-- Paths that are not the same tell apart what is at them. -/
theorem Path.ToldApart.of_same {p q : Path} (h : p.same q = false) : p.ToldApart q where
  paths := h
  locations place place' := by rw [SourceLocation.same, h, Bool.false_and]
  errors place place' herror := by
    obtain ⟨rfl, -⟩ := BuildError.unreadableSource.inj herror
    exact absurd h (by simp [Path.same])

/-- Paths that are taken for sources without one are the same just if they have one number. -/
theorem Builder.unnamedPath_same_iff {m n : UInt16} :
    (unnamedPath m).same (unnamedPath n) = true ↔ m = n := by
  rw [Path.same, decide_eq_true_eq, components_unnamedPath, components_unnamedPath]
  constructor
  · intro h
    -- a written number says which number it is
    have hnumbers : toString m.toNat = toString n.toNat :=
      RawText.ofText_injective (Path.Component.name.inj (List.cons.inj (List.cons.inj h).2).1)
    have hdigits : (toString m.toNat).toList ++ [] = (toString n.toNat).toList ++ [] := by
      rw [hnumbers]
    have hend : Json.NoDigitFirst [] := fun c hc => nomatch hc
    exact UInt16.toNat_inj.1 (Json.toldApart_number _ _ [] [] hend hend hdigits).1
  · rintro rfl
    rfl

end Paths

section Counting

variable {sources : List (Option Path × String)} {b b' : Builder} {i : Nat}

/-- Each source without a path is counted, in sixteen bits. -/
theorem nextUnnamed_foldlM_load
    (hok : sources.foldlM (fun b source => b.load source.1 source.2) b = .ok b') :
    b'.nextUnnamed = b.nextUnnamed + UInt16.ofNat (unnamedCount sources) := by
  induction sources generalizing b with
  | nil =>
    obtain rfl := pure_eq_ok.1 hok
    exact (UInt16.add_zero _).symm
  | cons source sources ih =>
    rw [List.foldlM_cons] at hok
    obtain ⟨b₁, hload, hok⟩ := bind_eq_ok.1 hok
    rw [ih hok, nextUnnamed_load hload]
    obtain ⟨path, text⟩ := source
    cases path with
    | some path => rfl
    | none =>
      have hcount : unnamedCount ((none, text) :: sources) = 1 + unnamedCount sources := by
        rw [unnamedCount, List.countP_cons_of_pos rfl, Nat.add_comm]
        rfl
      rw [hcount, UInt16.ofNat_add, ← UInt16.add_assoc]
      rfl

/-- The number of a source without a path is the count of those before it, modulo 65536. -/
theorem ComesUnnamed.nextUnnamed_eq (h : ComesUnnamed sources i b) :
    b.nextUnnamed = UInt16.ofNat (unnamedCount (sources.take i)) := by
  rw [nextUnnamed_foldlM_load h.loaded]
  exact UInt16.zero_add _

/-- A source without a path counts itself. -/
theorem ComesUnnamed.unnamedCount_take_succ (h : ComesUnnamed sources i b) :
    unnamedCount (sources.take (i + 1)) = unnamedCount (sources.take i) + 1 := by
  obtain ⟨text, htext⟩ := h.unnamed
  rw [List.take_add_one, htext, unnamedCount, List.countP_append]
  rfl

/-- Fewer sources come before an index than in all. -/
theorem unnamedCount_take_le (sources : List (Option Path × String)) {i j : Nat} (hij : i ≤ j) :
    unnamedCount (sources.take i) ≤ unnamedCount (sources.take j) :=
  (List.take_sublist_take_left hij).countP_le

/-- Of enough sources without a path, one comes after any smaller number of them. -/
theorem exists_unnamedCount_take_eq {k : Nat} (hk : k < unnamedCount sources) :
    ∃ i text, sources[i]? = some (none, text) ∧ unnamedCount (sources.take i) = k := by
  induction sources generalizing k with
  | nil => exact absurd hk (Nat.not_lt_zero k)
  | cons source sources ih =>
    obtain ⟨path, text⟩ := source
    cases path with
    | some path =>
      obtain ⟨i, text', hi, hcount⟩ := ih hk
      exact ⟨i + 1, text', hi, hcount⟩
    | none =>
      have hcons (xs : List (Option Path × String)) :
          unnamedCount ((none, text) :: xs) = unnamedCount xs + 1 :=
        List.countP_cons_of_pos rfl
      cases k with
      | zero => exact ⟨0, text, rfl, rfl⟩
      | succ k =>
        rw [hcons, Nat.succ_lt_succ_iff] at hk
        obtain ⟨i, text', hi, hcount⟩ := ih hk
        exact ⟨i + 1, text', hi, by rw [List.take_succ_cons, hcons, hcount]⟩

end Counting

section Runs

variable {loaded : List (Option Path × String)} {next : Option Path × String} {b : Builder}

/-- The number of a source without a path is small if there are not too many such sources. -/
private theorem ComesUnnamed.number_lt {sources : List (Option Path × String)} {i : Nat}
    (h : ComesUnnamed sources i b) (hcount : unnamedCount sources < UInt16.size) :
    unnamedCount (sources.take i) + 1 < UInt16.size := by
  rw [← h.unnamedCount_take_succ]
  exact ((List.take_sublist (i + 1) sources).countP_le).trans_lt hcount

/-- Sources of which not too many have no path are numbered apart. -/
theorem numberedApart_of_lt {sources : List (Option Path × String)}
    (hcount : unnamedCount sources < UInt16.size) : NumberedApart sources := by
  -- as long as the count fits into sixteen bits, the number is the count itself
  have hnumber {i : Nat} {b : Builder} (h : ComesUnnamed sources i b) :
      b.nextUnnamed.toNat = unnamedCount (sources.take i) := by
    rw [h.nextUnnamed_eq]
    exact UInt16.toNat_ofNat_of_lt (Nat.lt_of_succ_lt (h.number_lt hcount))
  have hlater {i j : Nat} {b b' : Builder} (hij : i < j) (h : ComesUnnamed sources i b)
      (h' : ComesUnnamed sources j b') : b.nextUnnamed ≠ b'.nextUnnamed := by
    intro heq
    have hle := unnamedCount_take_le sources (Nat.succ_le_of_lt hij)
    rw [h.unnamedCount_take_succ, ← hnumber h, ← hnumber h', heq] at hle
    exact absurd hle (Nat.not_succ_le_self _)
  refine { counts := fun i b h => ?counts, paths := fun i b h => ?paths, apart := ?apart }
  case counts =>
    have hlt := h.number_lt hcount
    rw [← hnumber h] at hlt
    show (b.nextUnnamed + 1).toNat = b.nextUnnamed.toNat + 1
    rw [UInt16.toNat_add]
    exact Nat.mod_eq_of_lt hlt
  case paths =>
    rw [← hnumber h]
    rfl
  case apart =>
    intro i j b b' hij h h'
    have hne : b.nextUnnamed ≠ b'.nextUnnamed := by
      rcases Nat.lt_or_gt_of_ne hij with hlt | hlt
      · exact hlater hlt h h'
      · exact (hlater hlt h' h).symm
    exact .of_same (Bool.eq_false_iff.2 fun hsame => hne (Builder.unnamedPath_same_iff.1 hsame))

/-- All sources but the last one have been loaded, so each one without a path comes to be loaded. -/
private theorem exists_comesUnnamed
    (hload : loaded.foldlM (fun b source => b.load source.1 source.2) Builder.empty = .ok b)
    {i : Nat} {text : String} (hi : (loaded ++ [next])[i]? = some (none, text)) :
    ∃ b', ComesUnnamed (loaded ++ [next]) i b' := by
  have hle : i ≤ loaded.length := by
    have hlt := (List.getElem?_eq_some_iff.1 hi).1
    rw [List.length_append] at hlt
    exact Nat.le_of_lt_succ hlt
  rw [← List.take_append_drop i loaded, List.foldlM_append] at hload
  obtain ⟨b', hb', -⟩ := bind_eq_ok.1 hload
  refine ⟨b', ⟨text, hi⟩, ?_⟩
  rw [List.take_append_of_le_length hle]
  exact hb'

/-- Sources that are numbered apart, all of which come to be loaded, are not too many without a
path. -/
theorem NumberedApart.unnamedCount_lt (h : NumberedApart (loaded ++ [next]))
    (hload : loaded.foldlM (fun b source => b.load source.1 source.2) Builder.empty = .ok b) :
    unnamedCount (loaded ++ [next]) < UInt16.size := by
  by_contra hcount
  -- the source that comes after 65535 others has the last number that there is
  obtain ⟨i, text, hi, htake⟩ :=
    exists_unnamedCount_take_eq (Nat.lt_of_succ_le (Nat.le_of_not_lt hcount))
  obtain ⟨b', hb'⟩ := exists_comesUnnamed hload hi
  have hnext := h.counts i b' hb'
  have hlast : b'.nextUnnamed = UInt16.ofNat 65535 := by rw [hb'.nextUnnamed_eq, htake]
  change (b'.nextUnnamed + 1).toNat = _ at hnext
  rw [hlast] at hnext
  exact absurd hnext (by decide)

end Runs

/-- The sources of a run, in which each is loaded after the ones before it, and of which the last
one may fail, are numbered as they should be, with paths that tell them apart, just if fewer than
65536 of them have no path. -/
theorem numberedApart_iff (loaded : List (Option Path × String)) (next : Option Path × String)
    {b : Builder}
    (hload : loaded.foldlM (fun b source => b.load source.1 source.2) Builder.empty = .ok b) :
    NumberedApart (loaded ++ [next]) ↔ unnamedCount (loaded ++ [next]) < 65536 :=
  ⟨fun h => h.unnamedCount_lt hload, numberedApart_of_lt⟩

namespace ManyUnnamed

/-- A source that defines a type. -/
def scalarSource : String := "scalar A"

/-- A source that writes nothing but an empty schema block. -/
def blankSource : String := "schema \x7b\x7d"

/-- What can be read in the first of these sources. -/
theorem read_scalarSource : TypeSystem.Document.read scalarSource =
    .ok ⟨[.type ⟨⟨1, 1⟩, none, "A", .scalar⟩]⟩ := by
  with_unfolding_all rfl

/-- What can be read in the other one. -/
theorem read_blankSource : TypeSystem.Document.read blankSource =
    .ok ⟨[.schema ⟨⟨1, 1⟩, none, none, none⟩]⟩ := by
  with_unfolding_all rfl

/-- The builder that the first of these sources leaves. -/
def afterScalar : Builder :=
  { Builder.empty with
    types := Builder.empty.types.insert "A"
      (.scalar ⟨"A", .written (Builder.unnamedPath 0) ⟨1, 1⟩, none⟩)
    nextUnnamed := 1 }

/-- The type is taken if it is new. -/
theorem load_scalarSource : Builder.empty.load none scalarSource = .ok afterScalar := by
  rw [Builder.load_of_read read_scalarSource]
  rfl

/-- The type is refused if it is there, with the path of the source in which it comes again. -/
theorem load_scalarSource_again (n : UInt16) :
    ({ afterScalar with nextUnnamed := n } : Builder).load none scalarSource =
      .error (.duplicateType "A" (.written (Builder.unnamedPath 0) ⟨1, 1⟩)
        (.written (Builder.unnamedPath n) ⟨1, 1⟩)) := by
  rw [Builder.load_of_read read_scalarSource]
  rfl

/-- The other source only counts as one, however often it is loaded. -/
theorem foldlM_load_blankSource (n : UInt16) (k : Nat) :
    (List.replicate k (none, blankSource)).foldlM (fun b source => b.load source.1 source.2)
        ({ afterScalar with nextUnnamed := n } : Builder) =
      .ok { afterScalar with nextUnnamed := n + UInt16.ofNat k } := by
  induction k generalizing n with
  | zero =>
    exact congrArg (fun n => Except.ok { afterScalar with nextUnnamed := n }) n.add_zero.symm
  | succ k ih =>
    have hload : ({ afterScalar with nextUnnamed := n } : Builder).load none blankSource =
        .ok { afterScalar with nextUnnamed := n + 1 } := by
      rw [Builder.load_of_read read_blankSource]
      rfl
    rw [List.replicate_succ, List.foldlM_cons, hload]
    show List.foldlM _ _ _ = _
    rw [ih, Nat.add_comm, UInt16.ofNat_add, ← UInt16.add_assoc]
    rfl

/-- Sources without a path: one that defines a type, and some that write nothing. -/
def sources (k : Nat) : List (Option Path × String) :=
  (none, scalarSource) :: List.replicate k (none, blankSource)

/-- Any number of these sources can be loaded. -/
theorem foldlM_load_sources (k : Nat) :
    (sources k).foldlM (fun b source => b.load source.1 source.2) Builder.empty =
      .ok { afterScalar with nextUnnamed := 1 + UInt16.ofNat k } := by
  rw [sources, List.foldlM_cons, load_scalarSource]
  exact foldlM_load_blankSource 1 k

end ManyUnnamed

open ManyUnnamed in
/-- Two sources without a path, one with a path between them, and one more that cannot be read are
numbered apart. -/
theorem numberedApart_iff_threeSources :
    ∃ b, [(none, scalarSource), (some ⟨"b.graphql"⟩, blankSource), (none, blankSource)].foldlM
        (fun b source => b.load source.1 source.2) Builder.empty = .ok b ∧
      NumberedApart ([(none, scalarSource), (some ⟨"b.graphql"⟩, blankSource), (none, blankSource)]
        ++ [(none, "\x7d")]) := by
  obtain ⟨b, hload⟩ : ∃ b,
      [(none, scalarSource), (some ⟨"b.graphql"⟩, blankSource), (none, blankSource)].foldlM
        (fun b source => b.load source.1 source.2) Builder.empty = .ok b := by
    refine ⟨{ afterScalar with nextUnnamed := 2 }, ?_⟩
    rw [List.foldlM_cons, load_scalarSource]
    show (Builder.load _ _ _ >>= fun b => Builder.load _ _ _ >>= fun b => .ok b) = _
    rw [Builder.load_of_read read_blankSource]
    show (Builder.load _ _ _ >>= fun b => .ok b) = _
    rw [Builder.load_of_read read_blankSource]
    rfl
  exact ⟨b, hload, (numberedApart_iff _ _ hload).2 (by decide)⟩

open ManyUnnamed in
/-- After 65536 sources without a path the next one gets the path of the first one, so a type that
both define is reported with one place for the two definitions. -/
theorem not_numberedApart_manyUnnamed :
    ∃ b, (sources 65535).foldlM (fun b source => b.load source.1 source.2) Builder.empty = .ok b ∧
      b.load none scalarSource = .error (.duplicateType "A" (.written ⟨"str://0"⟩ ⟨1, 1⟩)
        (.written ⟨"str://0"⟩ ⟨1, 1⟩)) ∧
      ¬ NumberedApart (sources 65535 ++ [(none, scalarSource)]) := by
  have hload := foldlM_load_sources 65535
  have hnumber : 1 + UInt16.ofNat 65535 = 0 := by decide
  rw [hnumber] at hload
  have hcount (k : Nat) : unnamedCount (sources k ++ [(none, scalarSource)]) = k + 2 := by
    rw [unnamedCount, List.countP_append, sources, List.countP_cons_of_pos rfl,
      List.countP_replicate]
    rfl
  refine ⟨_, hload, load_scalarSource_again 0, fun h => ?_⟩
  have hlt := h.unnamedCount_lt hload
  rw [hcount] at hlt
  exact absurd hlt (by decide)

end GraphQLCheck
