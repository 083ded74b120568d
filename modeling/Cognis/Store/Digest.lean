/-
  The digest of a database (`digest.rs` of `cognis-store`): canonical rows, sorted and
  hashed by category, and the rows by which two databases differ.

  * what `serde_json` does to a text and to a row is a parameter (`Serde`), and so is
    SHA-256;
  * `normalizeJson_eq`: the order of the keys of a JSON value does not matter;
  * `hashRows_eq_iff`: a category digest determines the multiset of its canonical rows;
  * `diff_spec`: the differences reported are those of the multisets.
-/
import Cognis.Core.Identity
import Cognis.Lib.Json
import Cognis.Lib.Records
import Cognis.Store.Database

namespace Cognis.Digest

open Records Table

/-! ## Canonical values -/

mutual

/-- `normalize_json`: the keys of an object in their order. -/
def normalizeJson : Json → Json
  | .object entries => .object (sortOn Prod.fst (normalizeEntries entries))
  | .array values => .array (normalizeValues values)
  | .null => .null
  | .bool b => .bool b
  | .number literal => .number literal
  | .string s => .string s

/-- The values of an array. -/
def normalizeValues : List Json → List Json
  | [] => []
  | value :: values => normalizeJson value :: normalizeValues values

/-- The values of an object. -/
def normalizeEntries : List (String × Json) → List (String × Json)
  | [] => []
  | (key, value) :: entries => (key, normalizeJson value) :: normalizeEntries entries

end

/-- What is taken from `serde_json`: the parser of a text, the text of an array, and the
    literal of an `f64` by its bits (`Number::from_f64`, none when it is not finite). -/
structure Serde where
  fromStr : String → Except String Json
  toString : List Json → String
  fromF64 : UInt64 → Option String

/-- The strings at the head of an array. -/
def leadingStrings : List Json → List String
  | .string s :: values => s :: leadingStrings values
  | _ => []

/-- The text of an array determines the strings at its head, as it can be read back. -/
def Serde.Separates (serde : Serde) : Prop :=
  ∀ values values', serde.toString values = serde.toString values' →
    leadingStrings values = leadingStrings values'

/-! ## The tables -/

/-- The columns of `symbol` that the digest reads; a `REAL` is kept by its bits. -/
structure SymbolColumns where
  id : String
  kind : String
  name : String
  qualifiedName : String
  language : String
  module : String
  filePath : String
  lineStart : ℤ
  lineEnd : ℤ
  signature : Option String
  docstring : Option String
  contentHash : String
  bodyExcerpt : Option String
  semanticSummary : Option String
  riskScore : UInt64
  ambiguous : ℤ
  untrustedFlags : Option String

/-- The columns of `edge`. -/
structure EdgeColumns where
  srcId : String
  dstId : String
  kind : String
  confidence : UInt64
  metadata : Option String

/-- The columns of `symbol_fts`. -/
structure FtsColumns where
  id : String
  name : String
  qualifiedName : String
  signature : Option String
  docstring : Option String
  bodyExcerpt : Option String

/-- The columns of `file` that the digest reads. -/
structure FileColumns where
  path : String
  language : String
  sizeBytes : ℤ
  contentHash : String
  parseStatus : String

/-- The tables that the digest reads, in the order of a scan. -/
structure DigestTables where
  symbols : List SymbolColumns := []
  edges : List EdgeColumns := []
  fts : List FtsColumns := []
  vectors : VecTable := ⟨.blob, []⟩
  files : List FileColumns := []

/-- The names of `DatabaseDigest::CATEGORIES`. -/
inductive DigestCategory where
  | symbols | edges | fts | vectorIds | files
  deriving DecidableEq, Repr

/-- `DatabaseDigest::CATEGORIES` -/
def DigestCategory.all : List DigestCategory := [.symbols, .edges, .fts, .vectorIds, .files]

theorem DigestCategory.mem_all (c : DigestCategory) : c ∈ all := by
  cases c <;> decide

/-! ## Canonical rows -/

/-- `collect::<Result<Vec<_>>>` -/
def collectRows {ρ α : Type} (row : ρ → Except String α) : List ρ → Except String (List α)
  | [] => .ok []
  | r :: rows =>
    match row r with
    | .error e => .error e
    | .ok a =>
      match collectRows row rows with
      | .error e => .error e
      | .ok as => .ok (a :: as)

/-- `nullable_text` -/
def nullableText (value : Option String) : Json := (value.map Json.string).getD .null

/-- `integer` -/
def integer (value : ℤ) : Json := .number (toString value)

section
variable (serde : Serde) (ext : VecExtension)

/-- `real` -/
def real (value : UInt64) : Except String Json :=
  match serde.fromF64 value with
  | none => .error "non-finite REAL in digest input"
  | some literal => .ok (.number literal)

/-- `normalized_json_text` -/
def normalizedJsonText (raw : Option String) (emptyObjectIsAbsent : Bool) : Except String Json :=
  match raw.filter fun text => !text.isEmpty with
  | none => .ok .null
  | some text =>
    match serde.fromStr text with
    | .error e => .error ("invalid JSON in digest input: " ++ e)
    | .ok value =>
      match normalizeJson value with
      | .object [] => if emptyObjectIsAbsent then .ok .null else .ok (.object [])
      | normalized => .ok normalized

/-- `symbol_row` -/
def symbolRow (row : SymbolColumns) : Except String String := do
  let flags ← normalizedJsonText serde row.untrustedFlags false
  let risk ← real serde row.riskScore
  return serde.toString [
    .string row.id, .string row.kind, .string row.name, .string row.qualifiedName,
    .string row.language, .string row.module, .string row.filePath, integer row.lineStart,
    integer row.lineEnd, nullableText row.signature, nullableText row.docstring,
    .string row.contentHash, nullableText row.bodyExcerpt, nullableText row.semanticSummary,
    risk, integer row.ambiguous, flags]

/-- `edge_row` -/
def edgeRow (row : EdgeColumns) : Except String String := do
  let metadata ← normalizedJsonText serde row.metadata true
  let confidence ← real serde row.confidence
  return serde.toString
    [.string row.srcId, .string row.dstId, .string row.kind, confidence, metadata]

/-- `edge_identifier` -/
def edgeIdentifier (row : EdgeColumns) : String :=
  serde.toString [.string row.srcId, .string row.dstId, .string row.kind]

/-- `fts_row` -/
def ftsRow (row : FtsColumns) : Except String String :=
  .ok (serde.toString [.string row.id, .string row.name, .string row.qualifiedName,
    nullableText row.signature, nullableText row.docstring, nullableText row.bodyExcerpt])

/-- `file_row` -/
def fileRow (row : FileColumns) : Except String String :=
  .ok (serde.toString [.string row.path, .string row.language, integer row.sizeBytes,
    .string row.contentHash, .string row.parseStatus])

/-- `vector_ids` -/
def vectorIds (db : DigestTables) : List String :=
  if db.vectors.isVec0 && !ext.isSome then [] else db.vectors.rows.map Prod.fst

/-- The canonical rows of a category (`query_rows`). -/
def canonicalRows (db : DigestTables) : DigestCategory → Except String (List String)
  | .symbols => collectRows (symbolRow serde) db.symbols
  | .edges => collectRows (edgeRow serde) db.edges
  | .fts => collectRows (ftsRow serde) db.fts
  | .vectorIds => .ok ((vectorIds ext db).map fun id => serde.toString [.string id])
  | .files => collectRows (fileRow serde) db.files

/-- A canonical row with the identifier of the row. -/
abbrev IdentifiedRow := String ×ₗ String

/-- `query_identified_rows` -/
def identifiedRows {ρ : Type} (identify : ρ → String) (canonicalize : ρ → Except String String)
    (rows : List ρ) : Except String (List IdentifiedRow) :=
  collectRows (fun r => (canonicalize r).map fun row => toLex (row, identify r)) rows

/-- `category_rows` -/
def categoryRows (db : DigestTables) : DigestCategory → Except String (List IdentifiedRow)
  | .symbols => identifiedRows (·.id) (symbolRow serde) db.symbols
  | .edges => identifiedRows (edgeIdentifier serde) (edgeRow serde) db.edges
  | .fts => identifiedRows (·.id) (ftsRow serde) db.fts
  | .vectorIds => .ok ((vectorIds ext db).map fun id => toLex (serde.toString [.string id], id))
  | .files => identifiedRows (·.path) (fileRow serde) db.files

end

/-! ## Digests -/

/-- `DatabaseDigest` -/
structure DatabaseDigest where
  symbols : String
  edges : String
  fts : String
  vectorIds : String
  files : String
  combined : String
  deriving DecidableEq, Repr

/-- `DatabaseDigest::category` -/
def DatabaseDigest.category (d : DatabaseDigest) : DigestCategory → String
  | .symbols => d.symbols
  | .edges => d.edges
  | .fts => d.fts
  | .vectorIds => d.vectorIds
  | .files => d.files

/-- `DigestDiff` -/
structure DigestDiff where
  category : DigestCategory
  onlyLeft : List String
  onlyRight : List String
  deriving DecidableEq, Repr

section
variable (sha256 : List UInt8 → List UInt8)

/-- `hash_rows` -/
def hashRows (rows : List String) : String :=
  .ofList (hexLower (sha256 ((sorted rows).flatMap fun row => lengthPrefixed 8 (asBytes row))))

/-- `hash_category_digests` -/
def hashCategoryDigests (digests : List String) : String :=
  .ofList (hexLower (sha256 (digests.flatMap asBytes)))

/-- `database_digest` -/
def databaseDigest (serde : Serde) (ext : VecExtension) (db : DigestTables) :
    Except String DatabaseDigest := do
  let symbols ← (canonicalRows serde ext db .symbols).map (hashRows sha256)
  let edges ← (canonicalRows serde ext db .edges).map (hashRows sha256)
  let fts ← (canonicalRows serde ext db .fts).map (hashRows sha256)
  let vectorIds ← (canonicalRows serde ext db .vectorIds).map (hashRows sha256)
  let files ← (canonicalRows serde ext db .files).map (hashRows sha256)
  let combined := hashCategoryDigests sha256 [symbols, edges, fts, vectorIds, files]
  return { symbols, edges, fts, vectorIds, files, combined }

/-- `category_diff` -/
def categoryDiff (category : DigestCategory) (left right : List IdentifiedRow) :
    Option DigestDiff :=
  let left := sorted left
  let right := sorted right
  if left = right then none
  else
    let only := splitDiff (left.length + right.length) left right
    some ⟨category, sortedSet (only.1.map fun row => (ofLex row).2),
      sortedSet (only.2.map fun row => (ofLex row).2)⟩

/-- `diff` -/
def diff (serde : Serde) (ext : VecExtension) (left right : DigestTables) :
    Except String (List DigestDiff) := do
  let leftRows ← collectRows (categoryRows serde ext left) DigestCategory.all
  let rightRows ← collectRows (categoryRows serde ext right) DigestCategory.all
  return (DigestCategory.all.zip (leftRows.zip rightRows)).filterMap fun (category, l, r) =>
    categoryDiff category l r

end

/-! ## The order of the keys -/

/-- JSON values that differ in the order of the keys of objects only. -/
inductive SameUpToKeys : Json → Json → Prop
  | refl (v : Json) : SameUpToKeys v v
  | trans {v w x : Json} : SameUpToKeys v w → SameUpToKeys w x → SameUpToKeys v x
  | keys {entries entries' : List (String × Json)} (hkeys : Keyed Prod.fst entries)
      (hperm : entries.Perm entries') : SameUpToKeys (.object entries) (.object entries')
  | value {key : String} {v w : Json} (before after : List (String × Json)) :
      SameUpToKeys v w → SameUpToKeys (.object (before ++ (key, v) :: after))
        (.object (before ++ (key, w) :: after))
  | item {v w : Json} (before after : List Json) :
      SameUpToKeys v w → SameUpToKeys (.array (before ++ v :: after)) (.array (before ++ w :: after))

theorem normalizeEntries_eq (entries : List (String × Json)) :
    normalizeEntries entries = entries.map fun e => (e.1, normalizeJson e.2) := by
  induction entries with
  | nil => rfl
  | cons e entries ih =>
    obtain ⟨key, value⟩ := e
    rw [normalizeEntries, ih]
    rfl

theorem normalizeValues_eq (values : List Json) : normalizeValues values = values.map normalizeJson := by
  induction values with
  | nil => rfl
  | cons value values ih =>
    rw [normalizeValues, ih]
    rfl

/-- **The order of the keys does not matter.** -/
theorem normalizeJson_eq {v w : Json} (h : SameUpToKeys v w) : normalizeJson v = normalizeJson w := by
  induction h with
  | refl => rfl
  | trans _ _ ih ih' => exact ih.trans ih'
  | keys hkeys hperm =>
    rw [normalizeJson, normalizeJson, normalizeEntries_eq, normalizeEntries_eq]
    refine congrArg Json.object (sortOn_eq ?_ (hperm.map _))
    simpa [Keyed, Function.comp_def] using hkeys
  | value before after _ ih =>
    simp only [normalizeJson, normalizeEntries_eq, List.map_append, List.map_cons, ih]
  | item before after _ ih =>
    simp only [normalizeJson, normalizeValues_eq, List.map_append, List.map_cons, ih]

/-! ## The category digests -/

section
variable {sha256 : List UInt8 → List UInt8}

/-- The rows fit the `u64` of their length. -/
def Fit (rows : List String) : Prop := ∀ row ∈ rows, (asBytes row).length < 2 ^ 64

/-- **A category digest determines the multiset of its rows**, and no more. -/
theorem hashRows_eq_iff (hsha : Function.Injective sha256) {rows rows' : List String}
    (hfit : Fit rows) (hfit' : Fit rows') :
    hashRows sha256 rows = hashRows sha256 rows' ↔ rows.Perm rows' := by
  rw [← sorted_eq_iff]
  constructor
  · intro h
    have hbytes := hsha (hexLower_inj (String.ofList_inj.1 h))
    have hdelimited : Delimited (fun row => lengthPrefixed 8 (asBytes row))
        fun row => (asBytes row).length < 2 ^ 64 := by
      intro a b ha hb x y hxy
      obtain ⟨hab, hrest⟩ := delimited_lengthPrefixed 8 _ _ ha hb x y hxy
      exact ⟨asBytes_inj hab, hrest⟩
    refine hdelimited.flatMap_inj (fun row => ?_) (fun row hrow => ?_) (fun row hrow => ?_) hbytes
    · simp [lengthPrefixed, beBytes]
    · exact hfit row ((sorted_perm rows).mem_iff.1 hrow)
    · exact hfit' row ((sorted_perm rows').mem_iff.1 hrow)
  · intro h
    rw [hashRows, h, hashRows]

end

/-! ## The rows of a category -/

theorem collectRows_eq_ok {ρ α : Type} {row : ρ → Except String α} {rows : List ρ} {as : List α} :
    collectRows row rows = .ok as ↔ List.Forall₂ (fun r a => row r = .ok a) rows as := by
  induction rows generalizing as with
  | nil =>
    simp only [collectRows, Except.ok.injEq, List.forall₂_nil_left_iff]
    exact eq_comm
  | cons r rows ih =>
    constructor
    · intro h
      rw [collectRows] at h
      cases hr : row r with
      | error e => simp [hr] at h
      | ok a =>
        cases hrows : collectRows row rows with
        | error e => simp [hr, hrows] at h
        | ok as' =>
          simp only [hr, hrows, Except.ok.injEq] at h
          subst h
          exact .cons hr (ih.1 hrows)
    · rintro (_ | ⟨hr, hall⟩)
      rw [collectRows, hr, ih.2 hall]

section
variable {serde : Serde} {ext : VecExtension} {db : DigestTables}

/-- The canonical row of an identified row. -/
def rowOf (p : IdentifiedRow) : String := (ofLex p).1

/-- The identifier of an identified row. -/
def idOf (p : IdentifiedRow) : String := (ofLex p).2

/-- A row that begins with its identifier, or with the strings the identifier is made of. -/
def Identified (serde : Serde) : DigestCategory → IdentifiedRow → Prop
  | .edges, p => ∃ src dst kind rest,
      rowOf p = serde.toString (.string src :: .string dst :: .string kind :: rest) ∧
        idOf p = serde.toString [.string src, .string dst, .string kind]
  | _, p => ∃ rest, rowOf p = serde.toString (.string (idOf p) :: rest)

/-- **The canonical row determines the identifier.** -/
theorem Identified.eq (hserde : serde.Separates) {c : DigestCategory} {p q : IdentifiedRow}
    (hp : Identified serde c p) (hq : Identified serde c q) (h : rowOf p = rowOf q) : p = q := by
  have hid : idOf p = idOf q := by
    cases c with
    | edges =>
      obtain ⟨s, d, k, rest, hrow, hid⟩ := hp
      obtain ⟨s', d', k', rest', hrow', hid'⟩ := hq
      have hlead := hserde _ _ (hrow.symm.trans (h.trans hrow'))
      simp only [leadingStrings, List.cons.injEq] at hlead
      rw [hid, hid', hlead.1, hlead.2.1, hlead.2.2.1]
    | symbols | fts | vectorIds | files =>
      obtain ⟨rest, hrow⟩ := hp
      obtain ⟨rest', hrow'⟩ := hq
      have hlead := hserde _ _ (hrow.symm.trans (h.trans hrow'))
      simp only [leadingStrings, List.cons.injEq] at hlead
      exact hlead.1
  exact Prod.ext h hid

theorem symbolRow_eq_ok {row : SymbolColumns} {text : String} (h : symbolRow serde row = .ok text) :
    ∃ rest, text = serde.toString (.string row.id :: rest) := by
  unfold symbolRow at h
  cases hflags : normalizedJsonText serde row.untrustedFlags false with
  | error e => rw [hflags] at h; cases h
  | ok flags =>
    cases hrisk : real serde row.riskScore with
    | error e => rw [hflags, hrisk] at h; cases h
    | ok risk =>
      rw [hflags, hrisk] at h
      cases h
      exact ⟨_, rfl⟩

theorem edgeRow_eq_ok {row : EdgeColumns} {text : String} (h : edgeRow serde row = .ok text) :
    ∃ rest, text =
      serde.toString (.string row.srcId :: .string row.dstId :: .string row.kind :: rest) := by
  unfold edgeRow at h
  cases hmeta : normalizedJsonText serde row.metadata true with
  | error e => rw [hmeta] at h; cases h
  | ok metadata =>
    cases hconf : real serde row.confidence with
    | error e => rw [hmeta, hconf] at h; cases h
    | ok confidence =>
      rw [hmeta, hconf] at h
      cases h
      exact ⟨_, rfl⟩

/-- The identified rows of a table are its canonical rows, with their identifiers. -/
theorem identifiedRows_spec {ρ : Type} {identify : ρ → String}
    {canonicalize : ρ → Except String String} {rows : List ρ} :
    (∀ l, identifiedRows identify canonicalize rows = .ok l →
      collectRows canonicalize rows = .ok (l.map rowOf) ∧
        ∀ p ∈ l, ∃ r, canonicalize r = .ok (rowOf p) ∧ idOf p = identify r) ∧
    ∀ texts, collectRows canonicalize rows = .ok texts →
      ∃ l, identifiedRows identify canonicalize rows = .ok l := by
  unfold identifiedRows
  simp only [collectRows_eq_ok]
  constructor
  · intro l hl
    induction hl with
    | nil => exact ⟨.nil, by simp⟩
    | @cons r p rows l hr hall ih =>
      cases hc : canonicalize r with
      | error e => rw [hc] at hr; cases hr
      | ok text =>
        rw [hc] at hr
        cases hr
        refine ⟨.cons hc ih.1, List.forall_mem_cons.2 ⟨⟨r, hc, rfl⟩, ih.2⟩⟩
  · intro texts htexts
    induction htexts with
    | nil => exact ⟨[], .nil⟩
    | @cons r text rows texts hr hall ih =>
      obtain ⟨l, hl⟩ := ih
      exact ⟨toLex (text, identify r) :: l, .cons (by rw [hr]; rfl) hl⟩

/-- **The rows of a category**, canonical and identified. -/
theorem categoryRows_spec (c : DigestCategory) :
    (∀ l, categoryRows serde ext db c = .ok l →
      canonicalRows serde ext db c = .ok (l.map rowOf) ∧ ∀ p ∈ l, Identified serde c p) ∧
    ∀ texts, canonicalRows serde ext db c = .ok texts →
      ∃ l, categoryRows serde ext db c = .ok l := by
  cases c with
  | symbols =>
    refine ⟨fun l hl => ?_, identifiedRows_spec.2⟩
    obtain ⟨hrows, hids⟩ := identifiedRows_spec.1 l hl
    refine ⟨hrows, fun p hp => ?_⟩
    obtain ⟨r, hrow, hid⟩ := hids p hp
    obtain ⟨rest, htext⟩ := symbolRow_eq_ok hrow
    exact ⟨rest, hid ▸ htext⟩
  | edges =>
    refine ⟨fun l hl => ?_, identifiedRows_spec.2⟩
    obtain ⟨hrows, hids⟩ := identifiedRows_spec.1 l hl
    refine ⟨hrows, fun p hp => ?_⟩
    obtain ⟨r, hrow, hid⟩ := hids p hp
    obtain ⟨rest, htext⟩ := edgeRow_eq_ok hrow
    exact ⟨_, _, _, rest, htext, hid⟩
  | fts =>
    refine ⟨fun l hl => ?_, identifiedRows_spec.2⟩
    obtain ⟨hrows, hids⟩ := identifiedRows_spec.1 l hl
    refine ⟨hrows, fun p hp => ?_⟩
    obtain ⟨r, hrow, hid⟩ := hids p hp
    exact ⟨_, hid ▸ (Except.ok.inj hrow).symm⟩
  | vectorIds =>
    refine ⟨fun l hl => ?_, fun _ _ => ⟨_, rfl⟩⟩
    obtain rfl := Except.ok.inj hl
    refine ⟨by simp [canonicalRows, rowOf, Function.comp_def], fun p hp => ?_⟩
    obtain ⟨id, -, rfl⟩ := List.mem_map.1 hp
    exact ⟨[], rfl⟩
  | files =>
    refine ⟨fun l hl => ?_, identifiedRows_spec.2⟩
    obtain ⟨hrows, hids⟩ := identifiedRows_spec.1 l hl
    refine ⟨hrows, fun p hp => ?_⟩
    obtain ⟨r, hrow, hid⟩ := hids p hp
    exact ⟨_, hid ▸ (Except.ok.inj hrow).symm⟩

/-- **A digest has the hash of the rows of each category.** -/
theorem databaseDigest_eq_ok {sha256 : List UInt8 → List UInt8} {d : DatabaseDigest}
    (h : databaseDigest sha256 serde ext db = .ok d) (c : DigestCategory) :
    ∃ texts, canonicalRows serde ext db c = .ok texts ∧ d.category c = hashRows sha256 texts := by
  unfold databaseDigest at h
  cases hs : canonicalRows serde ext db .symbols with
  | error e => rw [hs] at h; cases h
  | ok symbols =>
    cases he : canonicalRows serde ext db .edges with
    | error e => rw [hs, he] at h; cases h
    | ok edges =>
      cases hf : canonicalRows serde ext db .fts with
      | error e => rw [hs, he, hf] at h; cases h
      | ok fts =>
        cases hv : canonicalRows serde ext db .vectorIds with
        | error e => rw [hs, he, hf, hv] at h; cases h
        | ok vectorIds =>
          cases hp : canonicalRows serde ext db .files with
          | error e => rw [hs, he, hf, hv, hp] at h; cases h
          | ok files =>
            rw [hs, he, hf, hv, hp] at h
            cases h
            cases c with
            | symbols => exact ⟨symbols, hs, rfl⟩
            | edges => exact ⟨edges, he, rfl⟩
            | fts => exact ⟨fts, hf, rfl⟩
            | vectorIds => exact ⟨vectorIds, hv, rfl⟩
            | files => exact ⟨files, hp, rfl⟩

/-! ## The differences -/

/-- The rows that one list has more often than the other: the multiset difference. -/
def surplus (l r : List IdentifiedRow) : Multiset String :=
  (l.map rowOf : List String) - (r.map rowOf : List String)

/-- In identified rows, a row occurs as often as its canonical row. -/
theorem count_rowOf (hserde : serde.Separates) {c : DigestCategory} {l : List IdentifiedRow}
    (hl : ∀ q ∈ l, Identified serde c q) {p : IdentifiedRow} (hp : Identified serde c p) :
    (l.map rowOf).count (rowOf p) = l.count p := by
  rw [List.count, List.countP_map, List.count]
  refine List.countP_congr fun q hq => ?_
  simp only [Function.comp_apply, beq_iff_eq]
  exact ⟨fun h => (hl q hq).eq hserde hp h, fun h => h ▸ rfl⟩

theorem mem_surplus_iff (hserde : serde.Separates) {c : DigestCategory} {l r : List IdentifiedRow}
    (hl : ∀ q ∈ l, Identified serde c q) (hr : ∀ q ∈ r, Identified serde c q) {p : IdentifiedRow}
    (hp : Identified serde c p) : rowOf p ∈ surplus l r ↔ r.count p < l.count p := by
  rw [surplus, ← Multiset.count_pos, Multiset.count_sub, Multiset.coe_count, Multiset.coe_count,
    count_rowOf hserde hl hp, count_rowOf hserde hr hp, Nat.sub_pos_iff_lt]

/-- The canonical rows are the same exactly when the identified rows are. -/
theorem perm_map_rowOf_iff (hserde : serde.Separates) {c : DigestCategory}
    {l r : List IdentifiedRow} (hl : ∀ q ∈ l, Identified serde c q)
    (hr : ∀ q ∈ r, Identified serde c q) : (l.map rowOf).Perm (r.map rowOf) ↔ l.Perm r := by
  refine ⟨fun h => List.perm_iff_count.2 fun p => ?_, fun h => h.map _⟩
  by_cases hp : p ∈ l ∨ p ∈ r
  · have hid : Identified serde c p := hp.elim (hl p) (hr p)
    rw [← count_rowOf hserde hl hid, ← count_rowOf hserde hr hid]
    exact h.count_eq _
  · rw [not_or] at hp
    rw [List.count_eq_zero_of_not_mem hp.1, List.count_eq_zero_of_not_mem hp.2]

/-- **The differences of a category.** -/
theorem categoryDiff_spec (c : DigestCategory) (l r : List IdentifiedRow) :
    (categoryDiff c l r = none ↔ l.Perm r) ∧
    ∀ d, categoryDiff c l r = some d → d.category = c ∧
      d.onlyLeft.Pairwise (· < ·) ∧ d.onlyRight.Pairwise (· < ·) ∧
      (∀ id, id ∈ d.onlyLeft ↔ ∃ p ∈ l, idOf p = id ∧ r.count p < l.count p) ∧
      ∀ id, id ∈ d.onlyRight ↔ ∃ p ∈ r, idOf p = id ∧ l.count p < r.count p := by
  have hcount := count_splitDiff (pairwise_sorted l) (pairwise_sorted r) le_rfl
  have hleft : ∀ p : IdentifiedRow, p ∈ (splitDiff ((sorted l).length + (sorted r).length)
      (sorted l) (sorted r)).1 ↔ r.count p < l.count p := by
    intro p
    rw [← List.count_pos_iff, (hcount p).1, (sorted_perm l).count_eq, (sorted_perm r).count_eq]
    omega
  have hright : ∀ p : IdentifiedRow, p ∈ (splitDiff ((sorted l).length + (sorted r).length)
      (sorted l) (sorted r)).2 ↔ l.count p < r.count p := by
    intro p
    rw [← List.count_pos_iff, (hcount p).2, (sorted_perm l).count_eq, (sorted_perm r).count_eq]
    omega
  have hmem : ∀ {p : IdentifiedRow} {a b : List IdentifiedRow}, a.count p < b.count p → p ∈ b :=
    fun h => List.count_pos_iff.1 (by omega)
  unfold categoryDiff
  dsimp only
  split_ifs with heq
  · exact ⟨iff_of_true rfl (sorted_eq_iff.1 heq), by simp⟩
  · refine ⟨iff_of_false (by simp) fun hperm => heq (sorted_eq_iff.2 hperm), ?_⟩
    rintro d hd
    obtain rfl := Option.some.inj hd
    refine ⟨rfl, pairwise_sortedSet _, pairwise_sortedSet _, fun id => ?_, fun id => ?_⟩
    · rw [mem_sortedSet, List.mem_map]
      exact ⟨fun ⟨p, hp, hid⟩ => ⟨p, hmem ((hleft p).1 hp), hid, (hleft p).1 hp⟩,
        fun ⟨p, _, hid, hp⟩ => ⟨p, (hleft p).2 hp, hid⟩⟩
    · rw [mem_sortedSet, List.mem_map]
      exact ⟨fun ⟨p, hp, hid⟩ => ⟨p, hmem ((hright p).1 hp), hid, (hright p).1 hp⟩,
        fun ⟨p, _, hid, hp⟩ => ⟨p, (hright p).2 hp, hid⟩⟩

/-- When all the rows can be read, every category is compared. -/
theorem diff_eq_ok {left right : DigestTables} {rows rows' : DigestCategory → List IdentifiedRow}
    (hl : ∀ c, categoryRows serde ext left c = .ok (rows c))
    (hr : ∀ c, categoryRows serde ext right c = .ok (rows' c)) :
    diff serde ext left right =
      .ok (DigestCategory.all.filterMap fun c => categoryDiff c (rows c) (rows' c)) := by
  have hcollect : ∀ {db : DigestTables} {f : DigestCategory → List IdentifiedRow},
      (∀ c, categoryRows serde ext db c = .ok (f c)) →
      collectRows (categoryRows serde ext db) DigestCategory.all =
        .ok (DigestCategory.all.map f) := by
    intro db f hf
    refine collectRows_eq_ok.2 (List.forall₂_map_right_iff.2 (List.forall₂_same.2 fun c _ => hf c))
  unfold diff
  rw [hcollect hl, hcollect hr]
  rfl

end

/-! ## Soundness -/

/-- **Digest soundness**: the order of JSON keys does not matter, a category digest is equal
    exactly when the multisets of canonical rows are, and `diff` reports exactly the
    categories whose digests differ, with the sorted sets of the identifiers of the rows in
    the two multiset differences. -/
theorem digest_sound (serde : Serde) (hserde : serde.Separates) (sha256 : List UInt8 → List UInt8)
    (hsha : Function.Injective sha256) (ext : VecExtension) (left right : DigestTables)
    (dl dr : DatabaseDigest) (hl : databaseDigest sha256 serde ext left = .ok dl)
    (hr : databaseDigest sha256 serde ext right = .ok dr)
    (hfitl : ∀ c texts, canonicalRows serde ext left c = .ok texts → Fit texts)
    (hfitr : ∀ c texts, canonicalRows serde ext right c = .ok texts → Fit texts) :
    (∀ v w, SameUpToKeys v w → normalizeJson v = normalizeJson w) ∧
    ∃ ds, diff serde ext left right = .ok ds ∧ ∀ c, ∃ l r,
      categoryRows serde ext left c = .ok l ∧ categoryRows serde ext right c = .ok r ∧
      (dl.category c = dr.category c ↔
        ((l.map rowOf : List String) : Multiset String) = (r.map rowOf : List String)) ∧
      ((∃ d ∈ ds, d.category = c) ↔ dl.category c ≠ dr.category c) ∧
      ∀ d ∈ ds, d.category = c →
        d.onlyLeft.Pairwise (· < ·) ∧ d.onlyRight.Pairwise (· < ·) ∧
        (∀ id, id ∈ d.onlyLeft ↔ ∃ p ∈ l, idOf p = id ∧ rowOf p ∈ surplus l r) ∧
        ∀ id, id ∈ d.onlyRight ↔ ∃ p ∈ r, idOf p = id ∧ rowOf p ∈ surplus r l := by
  refine ⟨fun v w => normalizeJson_eq, ?_⟩
  have hrows : ∀ {db : DigestTables} {d : DatabaseDigest},
      databaseDigest sha256 serde ext db = .ok d →
      ∃ rows : DigestCategory → List IdentifiedRow, ∀ c, categoryRows serde ext db c = .ok (rows c) := by
    intro db d h
    have hall : ∀ c, ∃ l, categoryRows serde ext db c = .ok l := by
      intro c
      obtain ⟨texts, htexts, -⟩ := databaseDigest_eq_ok h c
      exact (categoryRows_spec c).2 texts htexts
    choose rows hrows using hall
    exact ⟨rows, hrows⟩
  obtain ⟨rows, hrowsl⟩ := hrows hl
  obtain ⟨rows', hrowsr⟩ := hrows hr
  refine ⟨_, diff_eq_ok hrowsl hrowsr, fun c => ⟨rows c, rows' c, hrowsl c, hrowsr c, ?_⟩⟩
  obtain ⟨htexts, hidl⟩ := (categoryRows_spec c).1 _ (hrowsl c)
  obtain ⟨htexts', hidr⟩ := (categoryRows_spec c).1 _ (hrowsr c)
  have hdigest : dl.category c = dr.category c ↔ ((rows c).map rowOf).Perm ((rows' c).map rowOf) := by
    obtain ⟨texts, h, hcat⟩ := databaseDigest_eq_ok hl c
    obtain ⟨texts', h', hcat'⟩ := databaseDigest_eq_ok hr c
    obtain rfl := Except.ok.inj (htexts.symm.trans h)
    obtain rfl := Except.ok.inj (htexts'.symm.trans h')
    rw [hcat, hcat', hashRows_eq_iff hsha (hfitl c _ h) (hfitr c _ h')]
  have hreported : ∀ d, d ∈ DigestCategory.all.filterMap (fun c => categoryDiff c (rows c) (rows' c)) →
      d.category = c → categoryDiff c (rows c) (rows' c) = some d := by
    intro d hd hc
    obtain ⟨c', -, hc'⟩ := List.mem_filterMap.1 hd
    obtain rfl := ((categoryDiff_spec c' _ _).2 d hc').1.symm.trans hc
    exact hc'
  refine ⟨hdigest.trans Multiset.coe_eq_coe.symm, ?_, fun d hd hc => ?_⟩
  · rw [Ne, hdigest, perm_map_rowOf_iff hserde hidl hidr, ← (categoryDiff_spec c _ _).1]
    constructor
    · rintro ⟨d, hd, hc⟩
      rw [hreported d hd hc]
      simp
    · intro hsome
      obtain ⟨d, hd⟩ := Option.ne_none_iff_exists'.1 hsome
      exact ⟨d, List.mem_filterMap.2 ⟨c, c.mem_all, hd⟩, ((categoryDiff_spec c _ _).2 d hd).1⟩
  · obtain ⟨-, hsl, hsr, honly, honly'⟩ := (categoryDiff_spec c _ _).2 d (hreported d hd hc)
    refine ⟨hsl, hsr, fun id => ?_, fun id => ?_⟩
    · rw [honly]
      refine exists_congr fun p => and_congr_right fun hp => and_congr_right fun _ => ?_
      exact (mem_surplus_iff hserde hidl hidr (hidl p hp)).symm
    · rw [honly']
      refine exists_congr fun p => and_congr_right fun hp => and_congr_right fun _ => ?_
      exact (mem_surplus_iff hserde hidr hidl (hidr p hp)).symm

/-! ### A full-text row that is stored twice -/

/-- A character of a string: quotes and backslashes are escaped. -/
def escaped (c : Char) : List Char := if c = '"' ∨ c = '\\' then ['\\', c] else [c]

/-- A string in quotes. -/
def quoted (s : List Char) : List Char := '"' :: s.flatMap escaped ++ ['"']

/-- The text of a string or of `null`. -/
def itemText : Json → List Char
  | .string s => quoted s.toList
  | _ => "null".toList

/-- The items after the first, and the bracket that closes the array. -/
def tailText : List Json → List Char
  | [] => [']']
  | v :: values => ',' :: (itemText v ++ tailText values)

/-- The text of an array. -/
def arrayText : List Json → List Char
  | [] => ['[', ']']
  | v :: values => '[' :: (itemText v ++ tailText values)

/-- The texts of arrays of strings without control characters, and of nulls. -/
def plainSerde : Serde where
  fromStr _ := .error "expected value at line 1 column 1"
  toString values := .ofList (arrayText values)
  fromF64 _ := none

theorem escaped_ne_quote (c : Char) (x y : List Char) : escaped c ++ x ≠ '"' :: y := by
  unfold escaped
  split_ifs with hc
  · simp
  · rw [not_or] at hc
    simp [hc.1]

theorem escaped_inj {c d : Char} {x y : List Char} (h : escaped c ++ x = escaped d ++ y) :
    c = d ∧ x = y := by
  unfold escaped at h
  split_ifs at h with hc hd hd
  · simpa using h
  · simp only [List.cons_append, List.nil_append, List.cons.injEq] at h
    exact absurd (.inr h.1.symm) hd
  · simp only [List.cons_append, List.nil_append, List.cons.injEq] at h
    exact absurd (.inr h.1) hc
  · simpa using h

/-- A quoted string ends at its closing quote. -/
theorem quoted_inj {s t x y : List Char} (h : quoted s ++ x = quoted t ++ y) : s = t ∧ x = y := by
  simp only [quoted, List.cons_append, List.append_assoc, List.cons.injEq, true_and,
    List.nil_append] at h
  induction s generalizing t with
  | nil =>
    cases t with
    | nil => exact ⟨rfl, by simpa using h⟩
    | cons d t =>
      rw [List.flatMap_cons, List.append_assoc] at h
      exact absurd h.symm (escaped_ne_quote d _ _)
  | cons c s ih =>
    cases t with
    | nil =>
      rw [List.flatMap_cons, List.append_assoc] at h
      exact absurd h (escaped_ne_quote c _ _)
    | cons d t =>
      rw [List.flatMap_cons, List.flatMap_cons, List.append_assoc, List.append_assoc] at h
      obtain ⟨rfl, hrest⟩ := escaped_inj h
      obtain ⟨rfl, hxy⟩ := ih hrest
      exact ⟨rfl, hxy⟩

theorem string_or_null (v : Json) : (∃ s, v = .string s) ∨
    itemText v = "null".toList ∧ ∀ values, leadingStrings (v :: values) = [] := by
  cases v with
  | string s => exact .inl ⟨s, rfl⟩
  | null | bool _ | number _ | array _ | object _ => exact .inr ⟨rfl, fun _ => rfl⟩

/-- Two items followed by texts: either both are strings, or neither leads with one. -/
theorem leading_of_itemText {v w : Json} {values values' : List Json} {x y : List Char}
    (h : itemText v ++ x = itemText w ++ y)
    (htail : x = y → leadingStrings values = leadingStrings values') :
    leadingStrings (v :: values) = leadingStrings (w :: values') := by
  rcases string_or_null v with ⟨s, rfl⟩ | ⟨hv, hlead⟩
  · rcases string_or_null w with ⟨t, rfl⟩ | ⟨hw, -⟩
    · obtain ⟨hst, hxy⟩ := quoted_inj h
      rw [leadingStrings, leadingStrings, String.toList_inj.1 hst, htail hxy]
    · rw [hw] at h
      simp [itemText, quoted] at h
  · rcases string_or_null w with ⟨t, rfl⟩ | ⟨-, hlead'⟩
    · rw [hv] at h
      simp [itemText, quoted] at h
    · rw [hlead, hlead']

theorem leading_of_tailText {values values' : List Json} (h : tailText values = tailText values') :
    leadingStrings values = leadingStrings values' := by
  induction values generalizing values' with
  | nil =>
    cases values' with
    | nil => rfl
    | cons w values' => simp [tailText] at h
  | cons v values ih =>
    cases values' with
    | nil => simp [tailText] at h
    | cons w values' => exact leading_of_itemText (List.cons.inj h).2 ih

theorem plainSerde_separates : plainSerde.Separates := by
  intro values values' h
  have htext : arrayText values = arrayText values' := String.ofList_inj.1 h
  cases values with
  | nil =>
    cases values' with
    | nil => rfl
    | cons w values' =>
      rcases string_or_null w with ⟨t, rfl⟩ | ⟨hw, hlead⟩
      · simp [arrayText, itemText, quoted] at htext
      · rw [hlead]
        rfl
  | cons v values =>
    cases values' with
    | nil =>
      rcases string_or_null v with ⟨t, rfl⟩ | ⟨hv, hlead⟩
      · simp [arrayText, itemText, quoted] at htext
      · rw [hlead]
        rfl
    | cons w values' =>
      exact leading_of_itemText (List.cons.inj htext).2 leading_of_tailText

/-- A row of `symbol_fts`. -/
def ftsRowA : FtsColumns := ⟨"s:a", "a", "a", some "fn a()", some "", none⟩

/-- The row once, as the store writes it. -/
def once : DigestTables := { fts := [ftsRowA] }

/-- The row twice, which the full-text table does not rule out. -/
def twice : DigestTables := { fts := [ftsRowA, ftsRowA] }

/-- **A row missing twice is reported once**: the sides of a difference are sets of
    identifiers, not multisets. -/
theorem not_multisetDifferences :
    ¬ ∀ (serde : Serde) (ext : VecExtension) (left right : DigestTables) (ds : List DigestDiff)
        (c : DigestCategory) (l r : List IdentifiedRow), serde.Separates →
      diff serde ext left right = .ok ds → categoryRows serde ext left c = .ok l →
      categoryRows serde ext right c = .ok r → ∀ d ∈ ds, d.category = c →
        (d.onlyLeft : Multiset String) = ((l : Multiset IdentifiedRow) - r).map idOf := by
  intro h
  have heq := h plainSerde none twice {} [⟨.fts, ["s:a"], []⟩] .fts
    [toLex ("[\"s:a\",\"a\",\"a\",\"fn a()\",\"\",null]", "s:a"),
      toLex ("[\"s:a\",\"a\",\"a\",\"fn a()\",\"\",null]", "s:a")] [] plainSerde_separates
    (by decide +kernel) (by decide +kernel) (by decide +kernel) _ List.mem_cons_self rfl
  exact absurd (congrArg Multiset.card heq) (by decide +kernel)

/-- SHA-256 of no bytes. -/
def hashOfNone : List UInt8 :=
  [227, 176, 196, 66, 152, 252, 28, 20, 154, 251, 244, 200, 153, 111, 185, 36, 39, 174, 65, 228,
   100, 155, 147, 76, 164, 149, 153, 27, 120, 82, 184, 85]

/-- SHA-256 of the row once. -/
def hashOfOne : List UInt8 :=
  [213, 205, 239, 52, 65, 91, 138, 217, 103, 51, 224, 82, 63, 244, 6, 31, 5, 246, 194, 2, 203,
   126, 200, 156, 92, 103, 161, 53, 157, 62, 166, 106]

/-- SHA-256 of the row twice. -/
def hashOfTwo : List UInt8 :=
  [25, 55, 56, 253, 62, 237, 7, 6, 23, 74, 97, 93, 212, 222, 196, 66, 5, 22, 75, 63, 196, 187,
   81, 173, 241, 5, 49, 162, 116, 215, 87, 6]

/-- SHA-256 of the digests of `once`. -/
def hashOfDigestsOne : List UInt8 :=
  [190, 144, 137, 180, 71, 79, 186, 156, 66, 216, 156, 211, 134, 80, 21, 219, 225, 156, 161, 73,
   14, 197, 20, 245, 127, 122, 238, 64, 113, 157, 4, 218]

/-- SHA-256 of the digests of `twice`. -/
def hashOfDigestsTwo : List UInt8 :=
  [245, 210, 185, 61, 231, 79, 247, 154, 95, 107, 120, 36, 168, 210, 199, 137, 83, 248, 35, 116,
   190, 84, 16, 39, 117, 93, 138, 54, 240, 128, 225, 68]

/-- The text of the row after its length. -/
def frameA : List UInt8 :=
  lengthPrefixed 8 (asBytes "[\"s:a\",\"a\",\"a\",\"fn a()\",\"\",null]")

/-- The texts of the five digests of a database that has full-text rows only. -/
def digestsBytes (fts : List UInt8) : List UInt8 :=
  [hashOfNone, hashOfNone, fts, hashOfNone, hashOfNone].flatMap fun hash =>
    asBytes (.ofList (hexLower hash))

/-- The texts that are hashed. -/
def hashedTexts : List (List UInt8 × List UInt8) :=
  [([], hashOfNone), (frameA, hashOfOne), (frameA ++ frameA, hashOfTwo),
    (digestsBytes hashOfOne, hashOfDigestsOne), (digestsBytes hashOfTwo, hashOfDigestsTwo)]

/-- A function without collisions that is SHA-256 on the texts hashed. -/
def sha256OfRows (bytes : List UInt8) : List UInt8 := (hashedTexts.lookup bytes).getD (0 :: bytes)

theorem sha256OfRows_injective : Function.Injective sha256OfRows := by
  have hdistinct : ∀ p ∈ hashedTexts, p.2.head? ≠ some 0 ∧
      ∀ q ∈ hashedTexts, p.2 = q.2 → p.1 = q.1 := by decide +kernel
  have hmem : ∀ {bytes hash}, hashedTexts.lookup bytes = some hash → (bytes, hash) ∈ hashedTexts := by
    intro bytes hash h
    obtain ⟨before, after, hsplit, -⟩ := List.lookup_eq_some_iff.1 h
    rw [hsplit]
    exact List.mem_append_right _ List.mem_cons_self
  intro a b h
  unfold sha256OfRows at h
  cases ha : hashedTexts.lookup a with
  | none =>
    cases hb : hashedTexts.lookup b with
    | none => simpa [ha, hb] using h
    | some hash =>
      rw [ha, hb] at h
      exact absurd (by rw [← Option.getD_some (a := hash), ← h]; rfl) (hdistinct _ (hmem hb)).1
  | some hash =>
    cases hb : hashedTexts.lookup b with
    | none =>
      rw [ha, hb] at h
      exact absurd (by rw [← Option.getD_some (a := hash), h]; rfl) (hdistinct _ (hmem ha)).1
    | some hash' =>
      rw [ha, hb] at h
      exact (hdistinct _ (hmem ha)).2 _ (hmem hb) h

/-- The digest of a database that has full-text rows only. -/
def digestOf (fts combined : List UInt8) : DatabaseDigest where
  symbols := .ofList (hexLower hashOfNone)
  edges := .ofList (hexLower hashOfNone)
  fts := .ofList (hexLower fts)
  vectorIds := .ofList (hexLower hashOfNone)
  files := .ofList (hexLower hashOfNone)
  combined := .ofList (hexLower combined)

/-- The row twice against the row once: the full-text digests differ, and `diff` says so. -/
theorem digest_sound_twice : ∃ ds, diff plainSerde none twice once = .ok ds ∧
    (digestOf hashOfTwo hashOfDigestsTwo).fts ≠ (digestOf hashOfOne hashOfDigestsOne).fts ∧
    ∃ d ∈ ds, d.category = .fts := by
  have hfit : ∀ db, (db = twice ∨ db = once) →
      ∀ c texts, canonicalRows plainSerde none db c = .ok texts → Fit texts := by
    intro db hdb c texts htexts
    have hall : ∀ db ∈ [twice, once], ∀ c ∈ DigestCategory.all,
        ∀ texts ∈ (canonicalRows plainSerde none db c).toOption, Fit texts := by
      unfold Fit
      decide +kernel
    exact hall db (by simpa using hdb) c c.mem_all texts (by rw [htexts]; rfl)
  obtain ⟨-, ds, hds, hall⟩ := digest_sound plainSerde plainSerde_separates sha256OfRows
    sha256OfRows_injective none twice once (digestOf hashOfTwo hashOfDigestsTwo)
    (digestOf hashOfOne hashOfDigestsOne) (by decide +kernel) (by decide +kernel)
    (hfit _ (.inl rfl)) (hfit _ (.inr rfl))
  obtain ⟨l, r, -, -, -, hreported, -⟩ := hall .fts
  have hne : (digestOf hashOfTwo hashOfDigestsTwo).category .fts ≠
      (digestOf hashOfOne hashOfDigestsOne).category .fts := by decide +kernel
  exact ⟨ds, hds, hne, hreported.2 hne⟩

end Cognis.Digest
