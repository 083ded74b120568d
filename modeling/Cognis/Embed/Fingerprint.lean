/-
  The model fingerprint of `cognis-embed` (`fingerprint.rs`) and the embedder that
  `build_embedder` makes of the same configuration and files (`lib.rs`, `onnx.rs`).

  * `VectorSpace` is what the vectors of an embedder are determined by, `buildEmbedder` the
    space of the embedder that is built;
  * `fingerprintMaterial` is the text that is hashed. The digest of an asset is the one of
    its sidecar, where there is one, whatever the file holds;
  * `Vouched`: the sidecars tell two states of a model directory apart;
  * `space_eq_of_derive_eq`: then one digest stands for one space.
-/
import Cognis.Core.Identity
import Cognis.Lib.Json
import Cognis.Lib.Words

namespace Cognis

/-! ## The configuration and the files -/

/-- `EmbedderConfig` -/
structure EmbedderConfig where
  backend : String
  model : String
  dim : ℕ
  batchSize : ℕ
  deriving DecidableEq, Repr

/-- A model directory: the contents of its files. -/
abbrev ModelDir := String → Option (List UInt8)

/-- The directories on the disk, by their absolute paths. -/
abbrev ModelDisk := String → Option ModelDir

/-- What a process looks for models by. -/
structure ModelHome where
  /-- `COGNIS_ONNX_MODEL_DIR` -/
  onnxModelDir : Option String
  /-- the directory of `current_exe` -/
  exeDir : Option String
  cwd : String
  deriving DecidableEq, Repr

/-- `resolve_model_dir`, which `resolve_model_dir_for_fingerprint` repeats. -/
def ModelHome.resolveModelDir (home : ModelHome) (disk : ModelDisk) (model : String) : String :=
  let rel := "assets/models/" ++ .ofList (afterLast '/' model.toList)
  let bundled :=
    match home.exeDir with
    | some exeDir =>
      let nextToExe := exeDir ++ "/" ++ rel
      if (disk nextToExe).isSome then nextToExe else home.cwd ++ "/" ++ rel
    | none => home.cwd ++ "/" ++ rel
  match home.onnxModelDir with
  | some dir =>
    if dir = "" then bundled
    else if "/".toList.isPrefixOf dir.toList then dir
    else home.cwd ++ "/" ++ dir
  | none => bundled

/-- The files that a process finds for a model. -/
def ModelHome.modelDir (home : ModelHome) (disk : ModelDisk) (model : String) : ModelDir :=
  (disk (home.resolveModelDir disk model)).getD fun _ => none

/-- What comes from other crates. -/
structure EmbedCrates where
  sha256 : List UInt8 → List UInt8
  /-- `serde_json::from_str` -/
  fromStr : List Char → Option Json
  /-- whether a session and a tokenizer can be made of the files; none in a build without
      the `_onnx` feature -/
  onnxRuntime : Option (List UInt8 → List UInt8 → Bool)

/-- `Pooling` -/
inductive Pooling where
  | cls | mean
  deriving DecidableEq, Repr

/-- `PoolingConfig` -/
structure PoolingConfig where
  pooling : Pooling := .cls
  normalize : Bool := true
  deriving DecidableEq, Repr

/-- `MODEL_ASSET_FILES` -/
def modelAssetFiles : List String := ["model.onnx", "tokenizer.json", "pooling.json"]

/-- `read_to_string` -/
def ModelDir.readToString (dir : ModelDir) (file : String) : Option (List Char) :=
  (dir file).bind fromUtf8

section
variable (crates : EmbedCrates)

/-- `parse_pooling_json`, and the body of `load_pooling`. -/
def parsePoolingJson (text : List Char) : PoolingConfig :=
  match crates.fromStr text with
  | none => {}
  | some value =>
    { pooling :=
        match (value.get "pooling").bind Json.asStr with
        | some s =>
          if Text.toAsciiLowercase s.toList = "mean".toList then .mean
          else .cls
        | none => .cls
      normalize := ((value.get "normalize").bind Json.asBool).getD true }

/-- `load_pooling` -/
def loadPooling (dir : ModelDir) : PoolingConfig :=
  ((dir.readToString "pooling.json").map (parsePoolingJson crates)).getD {}

/-! ## The embedder -/

/-- The backends that are compiled. -/
inductive EmbedBackend where
  | stub | onnxLocal
  deriving DecidableEq, Repr

/-- What the vectors of an embedder are determined by: a stub reads no file. The id of the
    model is taken without the white space around it. -/
@[ext] structure VectorSpace where
  backend : EmbedBackend
  model : List Char
  dim : ℕ
  /-- pooling and normalisation, and the contents of the assets -/
  files : Option (PoolingConfig × List (Option (List UInt8)))
  deriving DecidableEq, Repr

/-- `build_onnx_embedder` -/
def buildOnnxEmbedder (config : EmbedderConfig) (dir : ModelDir) : Option VectorSpace :=
  match crates.onnxRuntime, dir "model.onnx", dir "tokenizer.json" with
  | some accepts, some model, some tokenizer =>
    if accepts model tokenizer then
      some ⟨.onnxLocal, Text.trim config.model.toList, config.dim,
        some (loadPooling crates dir, modelAssetFiles.map dir)⟩
    else none
  | _, _, _ => none

/-- `build_embedder`: the space of the embedder it makes of the files, if it makes one. -/
def buildEmbedder (config : EmbedderConfig) (dir : ModelDir) : Option VectorSpace :=
  if config.backend = "stub" then some ⟨.stub, Text.trim config.model.toList, config.dim, none⟩
  else if config.backend = "local" ∨ config.backend = "onnx-local" then
    buildOnnxEmbedder crates config dir
  else none

/-! ## The fingerprint -/

/-- `is_ascii_hexdigit` -/
def isAsciiHexdigit (c : Char) : Bool :=
  c.isDigit || ('a' ≤ c && c ≤ 'f') || ('A' ≤ c && c ≤ 'F')

/-- `parse_sha256_sidecar` -/
def parseSha256Sidecar (text : List Char) : Option (List Char) :=
  match Text.lines text with
  | [] => none
  | first :: _ =>
    let line := Text.trim first
    if line = [] then none
    else
      let hex := Text.toAsciiLowercase (Text.trim ((words isWhitespace line).headD line))
      if hex.length = 64 ∧ hex.all isAsciiHexdigit then some hex else none

/-- The digest that the sidecar of an asset publishes. -/
def ModelDir.sidecar (dir : ModelDir) (asset : String) : Option (List Char) :=
  (dir.readToString (asset ++ ".sha256")).bind parseSha256Sidecar

/-- `asset_checksum` -/
def assetChecksum (dir : ModelDir) (asset : String) : List Char :=
  match dir.sidecar asset with
  | some hex => hex
  | none =>
    match dir asset with
    | some bytes => hexLower (crates.sha256 bytes)
    | none => "missing".toList

/-- `normalize_backend` -/
def normalizeBackend (backend : String) : List Char :=
  let trimmed := Text.trim backend.toList
  if trimmed = "local".toList ∨ trimmed = "onnx-local".toList then "onnx-local".toList else trimmed

/-- `pooling_and_normalization` -/
def poolingAndNormalization (dir : ModelDir) : List Char × List Char :=
  let config := ((dir.readToString "pooling.json").map (parsePoolingJson crates)).getD {}
  (match config.pooling with
    | .cls => "cls".toList
    | .mean => "mean".toList,
    if config.normalize then "l2".toList else "none".toList)

/-- The lines of the material before the id of the model. -/
def materialFront (config : EmbedderConfig) : List (List Char) :=
  ["backend=".toList ++ normalizeBackend config.backend, "dim=".toList ++ Nat.toDigits 10 config.dim]

/-- The lines after it. -/
def materialBack (config : EmbedderConfig) (dir : ModelDir) : List (List Char) :=
  ["batch_size=".toList ++ Nat.toDigits 10 config.batchSize,
    "pooling=".toList ++ (poolingAndNormalization crates dir).1,
    "normalization=".toList ++ (poolingAndNormalization crates dir).2] ++
  modelAssetFiles.map fun asset =>
    "asset.".toList ++ asset.toList ++ '=' :: assetChecksum crates dir asset

/-- `fingerprint_material` -/
def fingerprintMaterial (config : EmbedderConfig) (dir : ModelDir) : String :=
  .ofList (['\n'].intercalate (materialFront config ++
    ("model=".toList ++ Text.trim config.model.toList) :: materialBack crates config dir))

/-- `ModelFingerprint::derive_with_model_dir` -/
def deriveFingerprint (config : EmbedderConfig) (dir : ModelDir) : String :=
  .ofList (hexLower (crates.sha256 (asBytes (fingerprintMaterial crates config dir))))

end

/-- Where an asset has a sidecar in one of two states of a directory, equal digests are of
    equal contents. -/
def Vouched (crates : EmbedCrates) (dir dir' : ModelDir) : Prop :=
  ∀ asset ∈ modelAssetFiles, (dir.sidecar asset).isSome ∨ (dir'.sidecar asset).isSome →
    assetChecksum crates dir asset = assetChecksum crates dir' asset → dir asset = dir' asset

instance Vouched.decidable (crates : EmbedCrates) (dir dir' : ModelDir) :
    Decidable (Vouched crates dir dir') :=
  inferInstanceAs (Decidable (∀ asset ∈ modelAssetFiles, _ → _ → _))

/-! ## One digest for one space -/

section
variable {crates : EmbedCrates} {config config' : EmbedderConfig} {dir dir' : ModelDir}
  {space space' : VectorSpace}

theorem newline_notMem_hexLower (bytes : List UInt8) : '\n' ∉ hexLower bytes := by
  intro h
  obtain ⟨b, -, hb⟩ := List.mem_flatMap.1 h
  have hall : ∀ n : Fin 16, Nat.digitChar n ≠ '\n' := by decide
  have hlt := b.toNat_lt
  rcases List.mem_pair.1 hb with hb | hb
  · exact hall ⟨b.toNat / 16, by omega⟩ hb.symm
  · exact hall ⟨b.toNat % 16, by omega⟩ hb.symm

/-- A digest is no `missing`. -/
theorem hexLower_ne_missing (bytes : List UInt8) : hexLower bytes ≠ "missing".toList := by
  intro h
  have hm : 'm' ∈ hexLower bytes := by
    rw [h]
    decide
  obtain ⟨b, -, hb⟩ := List.mem_flatMap.1 hm
  have hall : ∀ n : Fin 16, Nat.digitChar n ≠ 'm' := by decide
  have hlt := b.toNat_lt
  rcases List.mem_pair.1 hb with hb | hb
  · exact hall ⟨b.toNat / 16, by omega⟩ hb.symm
  · exact hall ⟨b.toNat % 16, by omega⟩ hb.symm

theorem newline_notMem_toDigits (n : ℕ) : '\n' ∉ Nat.toDigits 10 n := by
  intro h
  have hdigit := Nat.isDigit_of_mem_toDigits (by decide) (by decide) h
  exact absurd hdigit (by decide)

theorem newline_notMem_sidecar {text hex : List Char} (h : parseSha256Sidecar text = some hex) :
    '\n' ∉ hex := by
  unfold parseSha256Sidecar at h
  split at h
  · cases h
  · dsimp only at h
    split_ifs at h with hline hhex
    cases h
    intro hmem
    have := List.all_eq_true.1 hhex.2 _ hmem
    exact absurd this (by decide)

theorem newline_notMem_assetChecksum (asset : String) :
    '\n' ∉ assetChecksum crates dir asset := by
  unfold assetChecksum
  split
  · next hex hside =>
    obtain ⟨text, -, hparse⟩ := Option.bind_eq_some_iff.1 hside
    exact newline_notMem_sidecar hparse
  · split
    · exact newline_notMem_hexLower _
    · decide

/-- Equal checksums are of equal contents, unless a sidecar speaks for them. -/
theorem asset_eq_of_checksum_eq (hsha : Function.Injective crates.sha256)
    (hvouched : Vouched crates dir dir') {asset : String} (hasset : asset ∈ modelAssetFiles)
    (h : assetChecksum crates dir asset = assetChecksum crates dir' asset) :
    dir asset = dir' asset := by
  cases hside : dir.sidecar asset with
  | some hex => exact hvouched asset hasset (.inl (by simp [hside])) h
  | none =>
    cases hside' : dir'.sidecar asset with
    | some hex => exact hvouched asset hasset (.inr (by simp [hside'])) h
    | none =>
      simp only [assetChecksum, hside, hside'] at h
      cases hfile : dir asset with
      | none =>
        cases hfile' : dir' asset with
        | none => rfl
        | some bytes' =>
          rw [hfile, hfile'] at h
          exact absurd h.symm (hexLower_ne_missing (crates.sha256 bytes'))
      | some bytes =>
        cases hfile' : dir' asset with
        | none =>
          rw [hfile, hfile'] at h
          exact absurd h (hexLower_ne_missing (crates.sha256 bytes))
        | some bytes' =>
          rw [hfile, hfile'] at h
          rw [hsha (hexLower_inj h)]

theorem pooling_eq_of_text_eq
    (h : poolingAndNormalization crates dir = poolingAndNormalization crates dir') :
    loadPooling crates dir = loadPooling crates dir' := by
  have htext : ∀ c c' : PoolingConfig,
      (match c.pooling with | .cls => "cls".toList | .mean => "mean".toList) =
        (match c'.pooling with | .cls => "cls".toList | .mean => "mean".toList) →
      (if c.normalize then "l2".toList else "none".toList) =
        (if c'.normalize then "l2".toList else "none".toList) → c = c' := by
    rintro ⟨pooling, normalize⟩ ⟨pooling', normalize'⟩
    cases pooling <;> cases pooling' <;> cases normalize <;> cases normalize' <;> simp
  have h₁ := congrArg Prod.fst h
  have h₂ := congrArg Prod.snd h
  exact htext _ _ h₁ h₂

/-- How the material names a backend. -/
def EmbedBackend.text : EmbedBackend → List Char
  | .stub => "stub".toList
  | .onnxLocal => "onnx-local".toList

/-- The files that an embedder of a backend is built from. -/
def EmbedBackend.filesOf (crates : EmbedCrates) (dir : ModelDir) :
    EmbedBackend → Option (PoolingConfig × List (Option (List UInt8)))
  | .stub => none
  | .onnxLocal => some (loadPooling crates dir, modelAssetFiles.map dir)

/-- What the material says of an embedder. -/
theorem material_of_buildEmbedder (h : buildEmbedder crates config dir = some space) :
    normalizeBackend config.backend = space.backend.text ∧
      space.model = Text.trim config.model.toList ∧ space.dim = config.dim ∧
      space.files = space.backend.filesOf crates dir := by
  unfold buildEmbedder at h
  split_ifs at h with hstub honnx
  · cases h
    refine ⟨?_, rfl, rfl, rfl⟩
    rw [hstub]
    show normalizeBackend "stub" = EmbedBackend.text .stub
    decide
  · unfold buildOnnxEmbedder at h
    split at h
    · split_ifs at h
      cases h
      refine ⟨?_, rfl, rfl, rfl⟩
      rcases honnx with hlocal | honnx
      · rw [hlocal]
        show normalizeBackend "local" = EmbedBackend.text .onnxLocal
        decide
      · rw [honnx]
        show normalizeBackend "onnx-local" = EmbedBackend.text .onnxLocal
        decide
    · cases h

theorem newline_notMem_material (h : buildEmbedder crates config dir = some space) :
    ∀ l ∈ materialFront config ++ materialBack crates config dir, '\n' ∉ l := by
  have hbackend : '\n' ∉ normalizeBackend config.backend := by
    rw [(material_of_buildEmbedder h).1]
    cases space.backend <;> decide
  have hpooling : '\n' ∉ (poolingAndNormalization crates dir).1 := by
    unfold poolingAndNormalization
    dsimp only
    split <;> decide
  have hnormalization : '\n' ∉ (poolingAndNormalization crates dir).2 := by
    unfold poolingAndNormalization
    dsimp only
    split_ifs <;> decide
  simp only [materialFront, materialBack, modelAssetFiles, List.map_cons, List.map_nil,
    List.mem_append, List.mem_cons, List.not_mem_nil, or_false]
  rintro l ((rfl | rfl) | (rfl | rfl | rfl) | rfl | rfl | rfl)
  · simpa using hbackend
  · simpa using newline_notMem_toDigits config.dim
  · simpa using newline_notMem_toDigits config.batchSize
  · simpa using hpooling
  · simpa using hnormalization
  all_goals simpa using newline_notMem_assetChecksum _

/-- Equal fingerprints are of equal lines. -/
theorem material_eq_of_derive_eq (hsha : Function.Injective crates.sha256)
    (hbuild : buildEmbedder crates config dir = some space)
    (hbuild' : buildEmbedder crates config' dir' = some space')
    (h : deriveFingerprint crates config dir = deriveFingerprint crates config' dir') :
    materialFront config = materialFront config' ∧
      Text.trim config.model.toList = Text.trim config'.model.toList ∧
      materialBack crates config dir = materialBack crates config' dir' := by
  have hmaterial : fingerprintMaterial crates config dir = fingerprintMaterial crates config' dir' :=
    asBytes_inj (hsha (hexLower_inj (String.ofList_inj.1 h)))
  obtain ⟨hfront, hmodel, hback⟩ := intercalate_frame_inj (newline_notMem_material hbuild)
    (newline_notMem_material hbuild') rfl rfl (String.ofList_inj.1 hmaterial)
  exact ⟨hfront, List.append_cancel_left hmodel, hback⟩

/-- One digest, one dimension. -/
theorem dim_eq_of_derive_eq (hsha : Function.Injective crates.sha256)
    (hbuild : buildEmbedder crates config dir = some space)
    (hbuild' : buildEmbedder crates config' dir' = some space')
    (h : deriveFingerprint crates config dir = deriveFingerprint crates config' dir') :
    space.dim = space'.dim := by
  obtain ⟨hfront, -, -⟩ := material_eq_of_derive_eq hsha hbuild hbuild' h
  simp only [materialFront, List.cons.injEq, List.append_cancel_left_eq, and_true] at hfront
  rw [(material_of_buildEmbedder hbuild).2.2.1, (material_of_buildEmbedder hbuild').2.2.1,
    toDigits_inj hfront.2]

/-- A fingerprint is not empty. -/
theorem deriveFingerprint_ne (hsha : ∀ bytes, crates.sha256 bytes ≠ []) (config : EmbedderConfig)
    (dir : ModelDir) : deriveFingerprint crates config dir ≠ "" := by
  intro h
  have hnil : hexLower (crates.sha256 (asBytes (fingerprintMaterial crates config dir))) = [] :=
    String.ofList_inj.1 h
  exact hsha _ (hexLower_inj (hnil.trans rfl))

/-- **One digest, one space**: embedders whose fingerprints are equal are of one space, if no
    sidecar hides a difference. -/
theorem space_eq_of_derive_eq (hsha : Function.Injective crates.sha256)
    (hbuild : buildEmbedder crates config dir = some space)
    (hbuild' : buildEmbedder crates config' dir' = some space')
    (hvouched : space.backend = .onnxLocal → Vouched crates dir dir')
    (h : deriveFingerprint crates config dir = deriveFingerprint crates config' dir') :
    space = space' := by
  have hdims := dim_eq_of_derive_eq hsha hbuild hbuild' h
  obtain ⟨hfront, hmodel, hback⟩ := material_eq_of_derive_eq hsha hbuild hbuild' h
  obtain ⟨hbackend, hspace, -, hfiles⟩ := material_of_buildEmbedder hbuild
  obtain ⟨hbackend', hspace', -, hfiles'⟩ := material_of_buildEmbedder hbuild'
  simp only [materialFront, List.cons.injEq, List.append_cancel_left_eq, and_true] at hfront
  have hsame : space.backend = space'.backend := by
    rw [hbackend, hbackend'] at hfront
    have htext := hfront.1
    cases hb : space.backend <;> cases hb' : space'.backend <;> rw [hb, hb'] at htext
    all_goals first | rfl | exact absurd htext (by decide)
  have hfiles : space.files = space'.files := by
    rw [hfiles, hfiles', hsame]
    cases hb : space'.backend with
    | stub => rfl
    | onnxLocal =>
      have hvouched := hvouched (hsame.trans hb)
      simp only [materialBack, modelAssetFiles, List.map_cons, List.map_nil, List.cons_append,
        List.nil_append, List.cons.injEq, List.append_cancel_left_eq, and_true, true_and] at hback
      obtain ⟨-, hpool, hnorm, honnx, htok, hjson⟩ := hback
      simp only [EmbedBackend.filesOf, pooling_eq_of_text_eq (Prod.ext hpool hnorm)]
      simp only [modelAssetFiles, List.map_cons, List.map_nil]
      rw [asset_eq_of_checksum_eq hsha hvouched (by decide) honnx,
        asset_eq_of_checksum_eq hsha hvouched (by decide) htok,
        asset_eq_of_checksum_eq hsha hvouched (by decide) hjson]
  have hspaces : space.model = space'.model := by rw [hspace, hspace', hmodel]
  exact VectorSpace.ext hsame hspaces hdims hfiles

end

end Cognis
