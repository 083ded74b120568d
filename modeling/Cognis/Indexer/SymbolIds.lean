/-
  The ids of the symbols of an artifact file: each is made of the name of an occurrence and of
  the hash of its text, so that occurrences of one name and one text share an id, and the
  store keeps one of them.

  * `symbolsKept_iff`: the symbols have ids of their own, and each is stored, exactly when no
    two occurrences have the same name and the same text (`Separated`);
  * `Markdown.separated_of_length_lt`: the line numbers keep the sections apart.
-/
import Cognis.Indexer.Extraction
import Cognis.Store.Publish

namespace Cognis

open Table

namespace Artifact

/-! ## What is stored -/

/-- A batch that publishes a file for the first time: it writes the symbols of these ids, and
    deletes none of them. -/
structure FirstPublish (filePath : String) (symbols : List Symbol) (db : Database)
    (batch : PublishBatch) : Prop where
  ids : batch.symbolUpserts.map Symbol.id = symbols.map Symbol.id
  path : ∀ s ∈ batch.symbolUpserts, s.filePath = filePath
  fresh : ∀ s ∈ db.symbols, s.filePath ≠ filePath
  kept : ∀ s ∈ batch.symbolUpserts, s.id ∉ db.deletedIds batch

/-- The symbols have ids of their own, and as many are stored as were extracted. -/
structure SymbolsKept (filePath : String) (symbols : List Symbol) : Prop where
  nodup : (symbols.map Symbol.id).Nodup
  stored : ∀ (ext : VecExtension) (now : ℤ) (db db' : Database) (batch : PublishBatch)
    (receipt : PublishReceipt), FirstPublish filePath symbols db batch →
      publish ext now db batch = .ok (db', receipt) →
        (db'.symbols.filter (·.filePath = filePath)).length = symbols.length

/-- The store keeps the symbols of different ids. -/
theorem symbolsKept_of_nodup {filePath : String} {symbols : List Symbol}
    (h : (symbols.map Symbol.id).Nodup) : SymbolsKept filePath symbols := by
  refine ⟨h, fun ext now db db' batch receipt hfirst hpublish => ?_⟩
  obtain ⟨written, hpublished⟩ := publish_spec hpublish
  have hkeyed : Keyed Symbol.id batch.symbolUpserts := by
    rw [Keyed, hfirst.ids]
    exact h
  have hold : db.symbols.filter (·.filePath = filePath) = [] := by
    rw [List.filter_eq_nil_iff]
    intro s hs
    simpa using hfirst.fresh s hs
  have hstored : db'.symbols.filter (·.filePath = filePath) = batch.symbolUpserts := by
    rw [hpublished.symbols, upsertAll_eq_append, hkeyed.build_eq, List.filter_append,
      List.filter_append, List.filter_comm, List.filter_comm (l := db.symbols), hold]
    rw [List.filter_nil, List.filter_nil, List.nil_append, List.filter_filter, List.filter_eq_self]
    intro s hs
    simp [hfirst.path s hs, hfirst.kept s hs]
  have hlength := congrArg List.length hfirst.ids
  rw [List.length_map, List.length_map] at hlength
  rw [hstored, hlength]

/-! ## The ids -/

/-- What an id is made of. -/
def Occurrence.identity (o : Occurrence) : List Char × List Char := (o.idKey, normalizeBody o.text)

/-- Texts that differ have different hashes. -/
def CollisionFree (sha256 : List UInt8 → List UInt8) (found : List Occurrence) : Prop :=
  ∀ o ∈ found, ∀ o' ∈ found, contentHash sha256 o.text = contentHash sha256 o'.text →
    normalizeBody o.text = normalizeBody o'.text

instance decidableCollisionFree (sha256 : List UInt8 → List UInt8) (found : List Occurrence) :
    Decidable (CollisionFree sha256 found) :=
  inferInstanceAs (Decidable (∀ o ∈ found, ∀ o' ∈ found, _ → _))

/-- Two lists of attributes that tell the same elements apart. -/
theorem nodup_map_iff {α β γ : Type} {l : List α} {f : α → β} {g : α → γ}
    (h : ∀ a ∈ l, ∀ b ∈ l, f a = f b ↔ g a = g b) : (l.map f).Nodup ↔ (l.map g).Nodup := by
  rw [List.Nodup, List.Nodup, List.pairwise_map, List.pairwise_map]
  exact List.Pairwise.iff_of_mem fun ha hb => not_congr (h _ ha _ hb)

/-- **An id is the identity of its occurrence.** -/
theorem ids_nodup_iff {sha256 : List UInt8 → List UInt8} {label filePath : List Char}
    {found : List Occurrence} (hfree : CollisionFree sha256 found) :
    ((found.map (Occurrence.symbol sha256 label filePath)).map Symbol.id).Nodup ↔
      (found.map Occurrence.identity).Nodup := by
  rw [List.map_map]
  refine nodup_map_iff fun o ho o' ho' => ?_
  constructor
  · intro heq
    obtain ⟨hkey, hhash⟩ := symbolId_inj (String.ofList_inj.1 heq)
    exact Prod.ext hkey (hfree o ho o' ho' hhash)
  · intro heq
    obtain ⟨hkey, htext⟩ := Prod.mk.inj heq
    simp only [Function.comp_apply, Occurrence.symbol, buildSymbol, makeSymbolId, contentHash, hkey,
      htext]

theorem textualFallback_nodup (sha256 : List UInt8 → List UInt8) (kind : ArtifactKind)
    (filePath source : List Char) :
    ((textualFallback sha256 kind filePath source).symbols.map Symbol.id).Nodup := by
  rw [textualFallback]
  split_ifs
  · exact List.nodup_nil
  · exact List.nodup_singleton _

/-- The ids of an output. -/
theorem output_nodup_iff {sha256 : List UInt8 → List UInt8} {kind : ArtifactKind}
    {filePath source : List Char} {found : List Occurrence} (hfree : CollisionFree sha256 found) :
    ((output sha256 kind filePath source found).symbols.map Symbol.id).Nodup ↔
      (found.map Occurrence.identity).Nodup := by
  rw [output]
  split_ifs with hnil
  · rw [hnil]
    exact iff_of_true (textualFallback_nodup sha256 kind filePath source) List.nodup_nil
  · exact ids_nodup_iff hfree

/-! ## What keeps the occurrences apart -/

/-- No two leaves have one path and one text, if the leaves are used at all. -/
def Yaml.Separated (kind : ArtifactKind) (source : List Char) : Prop :=
  Structured (leaves kind source) →
    ((leaves kind source).map fun leaf => (leaf.path, normalizeBody (leafText leaf))).Nodup

instance Yaml.decidableSeparated (kind : ArtifactKind) (source : List Char) :
    Decidable (Yaml.Separated kind source) := inferInstanceAs (Decidable (_ → _))

/-- The names and the texts of a table and of its columns. -/
def Sql.Table.identities (table : Sql.Table) : List (List Char × List Char) :=
  (table.name, normalizeBody (tableText table)) ::
    table.columns.map fun column =>
      (columnKey table.name column.name, normalizeBody (columnText table.name column))

/-- No two tables or columns have one name and one text. -/
def Sql.Separated (classes : CharClasses) (source : List Char) : Prop :=
  ∀ tables ∈ parseDdl classes source, (tables.flatMap Table.identities).Nodup

/-- No two functions of one name are on one line. -/
def Html.Separated (classes : CharClasses) (source : List Char) : Prop :=
  ∀ found ∈ declarations classes source,
    (found.2.map fun func => (func.name, max func.lineStart 1)).Nodup

/-- No two sections have one name, one line number and one text. -/
def Markdown.Separated (source : List Char) : Prop :=
  ((occurrences source).map Occurrence.identity).Nodup

/-- No two occurrences of a text have the same name and the same text. -/
def Separated (classes : CharClasses) (kind : ArtifactKind) (source : List Char) : Prop :=
  match kind with
  | .yaml => Yaml.Separated .yaml source
  | .toml => Yaml.Separated .toml source
  | .sql => Sql.Separated classes source
  | .html => Html.Separated classes source
  | .markdown => Markdown.Separated source

theorem Yaml.separated_iff (kind : ArtifactKind) (source : List Char) :
    ((occurrences kind source).map Occurrence.identity).Nodup ↔ Separated kind source := by
  rw [Separated, occurrences]
  split_ifs with hstructured
  · rw [List.map_map]
    exact ⟨fun h _ => h, fun h => h hstructured⟩
  · exact iff_of_true List.nodup_nil fun h => absurd h hstructured

theorem Sql.separated_iff (classes : CharClasses) (source : List Char) :
    (∀ found ∈ occurrences classes source, (found.map Occurrence.identity).Nodup) ↔
      Separated classes source := by
  have htable : ∀ table : Table, table.occurrences.map Occurrence.identity = table.identities := by
    intro table
    rw [Table.occurrences, Table.identities, List.map_cons, List.map_map]
    rfl
  have htables : ∀ tables : List Table, (tables.flatMap Table.occurrences).map Occurrence.identity =
      tables.flatMap Table.identities := by
    intro tables
    rw [List.map_flatMap]
    exact congrArg (tables.flatMap ·) (funext htable)
  simp only [Separated, occurrences, Option.mem_map, forall_exists_index, and_imp,
    forall_apply_eq_imp_iff₂, htables]

theorem Html.slash_notIdentStart (classes : CharClasses) : isIdentStart classes '/' = false := by
  rw [isIdentStart, classes.alphabetic_ascii '/' (by decide)]
  decide

theorem at_notMem_toDigits (n : ℕ) : '@' ∉ Nat.toDigits 10 n := by
  intro h
  exact absurd (Nat.isDigit_of_mem_toDigits (by decide) (by decide) h) (by decide)

/-- A name and a line number in a key. -/
theorem keyAt_inj {name name' : List Char} {m n : ℕ}
    (h : name ++ '@' :: Nat.toDigits 10 m = name' ++ '@' :: Nat.toDigits 10 n) :
    name = name' ∧ m = n := by
  have hlast := congrArg (afterLast '@') h
  rw [afterLast_append (at_notMem_toDigits m), afterLast_append (at_notMem_toDigits n)] at hlast
  rw [hlast, List.append_cancel_right_eq] at h
  exact ⟨h, toDigits_inj hlast⟩

theorem Html.funcIdentity_eq_iff (func func' : Func) :
    func.occurrence.identity = func'.occurrence.identity ↔
      (func.name, max func.lineStart 1) = (func'.name, max func'.lineStart 1) := by
  constructor
  · intro h
    obtain ⟨hname, hline⟩ := keyAt_inj (Prod.mk.inj h).1
    exact Prod.ext hname (UInt32.toNat_inj.1 hline)
  · intro h
    obtain ⟨hname, hline⟩ := Prod.mk.inj h
    simp only [Occurrence.identity, Func.occurrence, funcKey, funcText, hname, hline]

/-- A route is not a function: it begins with a slash. -/
theorem Html.separated_iff (classes : CharClasses) (source : List Char) :
    (∀ found ∈ occurrences classes source, (found.map Occurrence.identity).Nodup) ↔
      Separated classes source := by
  obtain ⟨routes, funcs, hdecl, hroutes, hvalues, hfuncs⟩ := declarations_spec classes source
  have hroutesnodup : ((routes.map RouteOcc.occurrence).map Occurrence.identity).Nodup := by
    rw [List.map_map]
    refine List.Nodup.of_map Prod.fst ?_
    rw [List.map_map]
    exact hvalues
  have hdisjoint : List.Disjoint ((routes.map RouteOcc.occurrence).map Occurrence.identity)
      ((funcs.map Func.occurrence).map Occurrence.identity) := by
    intro identity hroute hfunc
    simp only [List.mem_map, exists_exists_and_eq_and] at hroute hfunc
    obtain ⟨route, hmem, rfl⟩ := hroute
    obtain ⟨func, hfuncmem, heq⟩ := hfunc
    obtain ⟨c, hhead, hstart⟩ := (hfuncs func hfuncmem).named
    have hslash := (hroutes route hmem).slash
    have hkey : funcKey func = route.value := (Prod.mk.inj heq).1
    rw [← hkey, funcKey, List.head?_append, hhead, Option.some_or] at hslash
    rw [Option.some_inj.1 hslash, slash_notIdentStart] at hstart
    cases hstart
  have hboth : ((routes.map RouteOcc.occurrence ++ funcs.map Func.occurrence).map
      Occurrence.identity).Nodup ↔ (funcs.map fun func => (func.name, max func.lineStart 1)).Nodup := by
    rw [List.map_append, List.nodup_append']
    rw [and_iff_right hroutesnodup, and_iff_left hdisjoint, List.map_map]
    exact nodup_map_iff fun func _ func' _ => funcIdentity_eq_iff func func'
  simp only [Separated, occurrences, hdecl, Option.map_some, Option.mem_some_iff, forall_eq', hboth]

namespace Markdown

/-- The line of a section is in its key. -/
theorem mem_headingOccurrences {lines : List (List Char)} {headings : List Heading} {o : Occurrence}
    (ho : o ∈ headingOccurrences lines headings) :
    ∃ h ∈ headings, ∃ name, o.idKey = name ++ '@' :: lineText (toU32 (h.lineIdx + 1)) := by
  induction headings with
  | nil => exact absurd ho List.not_mem_nil
  | cons heading headings ih =>
    rcases List.mem_cons.1 ho with rfl | ho
    · exact ⟨heading, List.mem_cons_self, _, rfl⟩
    · obtain ⟨h, hh, hkey⟩ := ih ho
      exact ⟨h, List.mem_cons_of_mem _ hh, hkey⟩

/-- Keys with different lines differ. -/
theorem key_ne {name name' : List Char} {m n : ℕ} (hm : m < 2 ^ 32) (hn : n < 2 ^ 32) (hne : m ≠ n) :
    name ++ '@' :: lineText (toU32 m) ≠ name' ++ '@' :: lineText (toU32 n) := by
  intro h
  have hline := (keyAt_inj h).2
  rw [toNat_toU32 hm, toNat_toU32 hn] at hline
  exact hne hline

theorem headingOccurrences_pairwise {lines : List (List Char)} {headings : List Heading}
    (hsorted : headings.Pairwise fun h h' => h.lineIdx < h'.lineIdx)
    (hbound : ∀ h ∈ headings, h.lineIdx + 1 < 2 ^ 32) :
    (headingOccurrences lines headings).Pairwise fun o o' => o.idKey ≠ o'.idKey := by
  induction headings with
  | nil => exact .nil
  | cons heading headings ih =>
    obtain ⟨hfirst, hrest⟩ := List.pairwise_cons.1 hsorted
    refine List.pairwise_cons.2 ⟨fun o ho => ?_, ih hrest fun h hh => hbound h (.tail _ hh)⟩
    obtain ⟨h, hh, name, hkey⟩ := mem_headingOccurrences ho
    rw [hkey]
    have hlt := hfirst h hh
    exact key_ne (hbound heading List.mem_cons_self) (hbound h (.tail _ hh)) (by omega)

/-- **Line numbers keep the sections apart**, as long as they fit. -/
theorem separated_of_length_lt {source : List Char} (hlen : (Text.lines source).length < 2 ^ 32) :
    Separated source := by
  have hkeys : (occurrences source).Pairwise fun o o' => o.idKey ≠ o'.idKey := by
    have hsorted := scanHeadings_sorted (Text.lines source)
    rw [occurrences]
    cases hscan : scanHeadings (Text.lines source) with
    | nil => exact .nil
    | cons heading headings =>
      rw [hscan] at hsorted
      have hbound : ∀ h ∈ heading :: headings, h.lineIdx + 1 < 2 ^ 32 := by
        intro h hh
        have := (mem_scanFrom (hscan ▸ hh : h ∈ scanHeadings (Text.lines source))).2
        omega
      refine List.pairwise_append.2
        ⟨?_, headingOccurrences_pairwise hsorted hbound, fun o ho o' ho' => ?_⟩
      · rw [preambleOccurrence]
        split_ifs
        · exact List.pairwise_singleton _ _
        · exact .nil
      · obtain ⟨h, hh, name, hkey⟩ := mem_headingOccurrences ho'
        rw [preambleOccurrence] at ho
        split_ifs at ho with hcontent
        · obtain rfl := List.mem_singleton.1 ho
          have hle : heading.lineIdx ≤ h.lineIdx := by
            rcases List.mem_cons.1 hh with rfl | hh
            · exact le_rfl
            · exact ((List.pairwise_cons.1 hsorted).1 h hh).le
          have hpos := hcontent.1
          rw [hkey]
          exact key_ne (m := 1) (by omega) (hbound h hh) (by omega)
        · exact absurd ho List.not_mem_nil
  rw [Separated, List.Nodup, List.pairwise_map]
  exact hkeys.imp fun hne heq => hne (Prod.mk.inj heq).1

end Markdown

/-- What keeps the occurrences apart. -/
theorem separated_iff (classes : CharClasses) (kind : ArtifactKind) (source : List Char) :
    (∀ found ∈ occurrences classes kind source, (found.map Occurrence.identity).Nodup) ↔
      Separated classes kind source := by
  cases kind with
  | yaml => simpa [occurrences, Separated] using Yaml.separated_iff .yaml source
  | toml => simpa [occurrences, Separated] using Yaml.separated_iff .toml source
  | sql => exact Sql.separated_iff classes source
  | html => exact Html.separated_iff classes source
  | markdown => simp [occurrences, Separated, Markdown.Separated]

/-- The symbols that are extracted from a text are kept. -/
def ExtractionKept (sha256 : List UInt8 → List UInt8) (classes : CharClasses) (kind : ArtifactKind)
    (filePath source : List Char) : Prop :=
  ∀ out ∈ extractArtifact sha256 classes kind filePath source,
    SymbolsKept (String.ofList filePath) out.symbols

/-- **Where the symbols of a file are kept**: exactly where no two occurrences have the same
    name and the same text. -/
theorem extractionKept_iff {sha256 : List UInt8 → List UInt8} {classes : CharClasses}
    {kind : ArtifactKind} (filePath : List Char) {source : List Char}
    (hfree : ∀ found ∈ occurrences classes kind source, CollisionFree sha256 found) :
    ExtractionKept sha256 classes kind filePath source ↔ Separated classes kind source := by
  rw [ExtractionKept, extractArtifact_eq, ← separated_iff]
  constructor
  · intro h found hfound
    exact (output_nodup_iff (hfree found hfound)).1 (h _ (Option.mem_map_of_mem _ hfound)).nodup
  · intro h out hout
    obtain ⟨found, hfound, rfl⟩ := Option.mem_map.1 hout
    exact symbolsKept_of_nodup ((output_nodup_iff (hfree found hfound)).2 (h found hfound))

/-! ## A file of two documents -/

/-- The symbols of every artifact file are kept, if the hashes do not collide. -/
def AlwaysKept : Prop :=
  ∀ (sha256 : List UInt8 → List UInt8) (classes : CharClasses) (kind : ArtifactKind)
    (filePath source : List Char),
    (∀ found ∈ occurrences classes kind source, CollisionFree sha256 found) →
      ExtractionKept sha256 classes kind filePath source

/-- The digests of the texts of the leaves of `settings`. -/
def settingsDigest (text : List UInt8) : List UInt8 :=
  if text = asBytes "a 1" then
    [0x04, 0x2A, 0x5F, 0x2E, 0x76, 0x34, 0xC4, 0xC8, 0x0A, 0x75, 0x69, 0x1B, 0x6B, 0x89, 0xDF, 0xE4,
      0xE1, 0x75, 0x85, 0x58, 0xCE, 0x99, 0xE7, 0x34, 0x6B, 0x52, 0x97, 0xB6, 0x8F, 0xA9, 0x5D,
      0x11]
  else
    [0x37, 0xAD, 0xE1, 0x92, 0x74, 0xFE, 0x0A, 0x50, 0x55, 0x4F, 0x1B, 0xA3, 0x8F, 0xE4, 0x0B, 0xB7,
      0x7D, 0xDE, 0xEE, 0x0E, 0x10, 0x79, 0xAB, 0x6D, 0x63, 0x7F, 0xD8, 0x86, 0x83, 0x64, 0x17,
      0xEC]

def settings : List Char := "a: 1\nb: 2\n".toList

/-- No two texts of the leaves have one hash. -/
theorem collisionFree_leaves {source : List Char}
    (h : CollisionFree settingsDigest (Yaml.occurrences .yaml source)) :
    ∀ found ∈ occurrences asciiClasses .yaml source, CollisionFree settingsDigest found := by
  rintro found hfound
  rwa [← Option.some_inj.1 hfound]

theorem extractionKept_settings :
    ExtractionKept settingsDigest asciiClasses .yaml "s.yaml".toList settings :=
  (extractionKept_iff "s.yaml".toList (collisionFree_leaves (by decide +kernel))).2
    (show Yaml.Separated .yaml settings by decide +kernel)

/-- A document, and the same once more. -/
def twoDocuments : List Char := "a: 1\n---\na: 1\n".toList

/-- The two leaves share their id. -/
theorem not_alwaysKept : ¬ AlwaysKept := by
  intro h
  have hkept := h settingsDigest asciiClasses .yaml "s.yaml".toList twoDocuments
    (collisionFree_leaves (by decide +kernel))
  have hnodup := (hkept _ rfl).nodup
  revert hnodup
  decide +kernel

end Artifact

end Cognis
