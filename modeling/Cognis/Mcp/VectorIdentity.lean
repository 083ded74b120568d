/-
  The rows of `symbol_vec` and the row of `vector_space` (`publish.rs`, `embed_queue.rs`).

  A publish with vectors records their fingerprint, and drops the rows of another one. The
  drain writes its vectors and records nothing.

  * `Identified`: every row has the recorded length and is of an embedder with the recorded
    fingerprint;
  * `KeepsSpace`: a drain writes under the recorded fingerprint;
  * `identified_of_run`: in every run of such steps the rows are identified, over publishes,
    drains and openings with other models and dimensions;
  * `not_alwaysIdentified`: the drain of a fresh store.
-/
import Cognis.Mcp.VectorSpace

namespace Cognis

open Transition Table

namespace SemanticSystem

variable (crates : EmbedCrates) (s : SemanticSystem)

/-! ## The property and the condition -/

/-- **What is to hold**: a row has the recorded length, and its vector is of an embedder that
    files of the recorded fingerprint build. -/
def Identified : Prop :=
  ∀ row ∈ s.db.vectors.rows, ∃ recorded, s.db.vectorSpace = some recorded ∧
    row.2.length = recorded.dim ∧
      ∃ space, s.origin row.1 = some space ∧ s.StandsFor crates recorded.digest space

/-- The files of the models stay, and an embedder returns vectors of its dimension. -/
def Ordinary : SemanticLabel → Prop
  | .changeFiles _ => False
  | .prepare _ _ reply => ∀ answer ∈ reply, ∀ vector ∈ answer.2, vector.length = answer.1.dim
  | .drainRow _ _ _ _ reply => ∀ answer ∈ reply, ∀ vectors, answer.2 = .ok vectors →
    ∀ vector ∈ vectors, vector.length = answer.1.dim
  | _ => True

/-- The recorded fingerprint is one of the embedder of the drain. -/
def RecordedFor (indexer : VectorIndexer) : Prop :=
  match indexer.work with
  | .drain row _ space => s.db.hasSymbol row.symbolId = true →
    ∃ recorded ∈ s.db.vectorSpace, s.StandsFor crates recorded.digest space
  | _ => True

/-- The party whose drain a step persists. -/
def persistedBy : SemanticLabel → Option ℕ
  | .persist i => some i
  | _ => none

/-- **The condition on a step**: a drain writes a vector under the recorded fingerprint. -/
def KeepsSpace : SemanticLabel → Prop
  | .persist i => ∀ indexer ∈ s.indexers[i]?, s.RecordedFor crates indexer
  | _ => True

instance RecordedFor.decidable : DecidablePred (s.RecordedFor crates)
  | ⟨_, _, _, _, .drain row _ space⟩ =>
    inferInstanceAs (Decidable (s.db.hasSymbol row.symbolId = true →
      ∃ recorded ∈ s.db.vectorSpace, s.StandsFor crates recorded.digest space))
  | ⟨_, _, _, _, .idle⟩ => inferInstanceAs (Decidable True)
  | ⟨_, _, _, _, .publish _ _⟩ => inferInstanceAs (Decidable True)

instance KeepsSpace.decidable : DecidablePred (s.KeepsSpace crates) := fun label =>
  decidable_of_iff (∀ i ∈ persistedBy label, ∀ indexer ∈ s.indexers[i]?, s.RecordedFor crates indexer) <| by
    cases label <;> simp [KeepsSpace, persistedBy]

/-! ## The invariant -/

/-- What an indexer has begun is of its embedder. -/
def WorkSound : VectorWork → Prop
  | .idle => True
  | .publish batch none => batch.vectorUpserts = []
  | .publish batch (some space) => ∃ fingerprint, batch.fingerprint = some fingerprint ∧
    fingerprint.digest ≠ "" ∧ s.StandsFor crates fingerprint.digest space ∧
      fingerprint.dim = space.dim
  | .drain _ vectors space => ∀ vector ∈ vectors, vector.length = space.dim

/-- The model of an indexer is built from the files that it finds. -/
structure IndexerSound (indexer : VectorIndexer) : Prop where
  model : indexer.model.OfModels fun space =>
    (s.find indexer.home indexer.config).space crates = some space
  work : s.WorkSound crates indexer.work

/-- The invariant. -/
structure IdentityInv : Prop where
  rows : s.Identified crates
  /-- the recorded fingerprint is one of an embedder of the recorded dimension -/
  recorded : ∀ recorded ∈ s.db.vectorSpace, recorded.digest ≠ "" ∧
    ∃ space, s.StandsFor crates recorded.digest space ∧ space.dim = recorded.dim
  indexers : ∀ indexer ∈ s.indexers, s.IndexerSound crates indexer

variable {crates s} {t : SemanticSystem} {files : ModelFiles} {db : Database} {space : VectorSpace}
  {indexer : VectorIndexer}

theorem StandsFor.mono {digest : String} (h : s.StandsFor crates digest space)
    (hseen : s.seen ⊆ t.seen) : t.StandsFor crates digest space := by
  obtain ⟨files, hfiles, hspace⟩ := h
  exact ⟨files, hseen hfiles, hspace⟩

/-- One digest, one dimension. -/
theorem StandsFor.dim_eq (hsha : Function.Injective crates.sha256) {digest : String}
    {space' : VectorSpace} (h : s.StandsFor crates digest space)
    (h' : s.StandsFor crates digest space') : space.dim = space'.dim := by
  obtain ⟨files, -, hdigest, hspace⟩ := h
  obtain ⟨files', -, hdigest', hspace'⟩ := h'
  exact dim_eq_of_derive_eq hsha hspace hspace' (hdigest.trans hdigest'.symm)

theorem WorkSound.mono {work : VectorWork} (h : s.WorkSound crates work) (hseen : s.seen ⊆ t.seen) :
    t.WorkSound crates work := by
  cases work with
  | idle => exact trivial
  | publish batch space =>
    cases space with
    | none => exact h
    | some space =>
      obtain ⟨fingerprint, hfp, hne, hstands, hdim⟩ := h
      exact ⟨fingerprint, hfp, hne, hstands.mono hseen, hdim⟩
  | drain row vectors space => exact h

theorem IndexerSound.mono (h : s.IndexerSound crates indexer) (hdisk : t.disk = s.disk)
    (hseen : s.seen ⊆ t.seen) : t.IndexerSound crates indexer := by
  refine ⟨?_, h.work.mono hseen⟩
  unfold find
  rw [hdisk]
  exact h.model

/-- Rows go, and the recorded fingerprint stays. -/
theorem IdentityInv.withRows (h : s.IdentityInv crates) (hseen : s.seen ⊆ t.seen)
    (hspace : t.db.vectorSpace = s.db.vectorSpace) (hrows : t.db.vectors.rows ⊆ s.db.vectors.rows)
    (horigin : t.origin = s.origin)
    (hindexers : ∀ indexer ∈ t.indexers, t.IndexerSound crates indexer) : t.IdentityInv crates where
  rows row hrow := by
    obtain ⟨recorded, hrecorded, hlength, space, hfrom, hstands⟩ := h.rows row (hrows hrow)
    exact ⟨recorded, hspace.trans hrecorded, hlength, space, by rw [horigin]; exact hfrom,
      hstands.mono hseen⟩
  recorded recorded hrecorded := by
    rw [hspace] at hrecorded
    obtain ⟨hne, space, hstands, hdim⟩ := h.recorded recorded hrecorded
    exact ⟨hne, space, hstands.mono hseen, hdim⟩
  indexers := hindexers

theorem mem_modify {α : Type*} {l : List α} {i : ℕ} {f : α → α} {x : α} (h : x ∈ l.modify i f) :
    x ∈ l ∨ ∃ y, l[i]? = some y ∧ x = f y := by
  obtain ⟨j, hj⟩ := List.mem_iff_getElem?.1 h
  rw [List.getElem?_modify] at hj
  obtain ⟨y, hy, rfl⟩ := Option.map_eq_some_iff.1 hj
  split_ifs with hij
  · exact .inr ⟨y, hij ▸ hy, rfl⟩
  · exact .inl (List.mem_of_getElem? hy)

/-- The indexer goes on with other work. -/
theorem sound_withWork (h : ∀ indexer ∈ s.indexers, s.IndexerSound crates indexer) {i : ℕ}
    {work : VectorWork} (hwork : s.WorkSound crates work) :
    ∀ indexer ∈ (s.withWork i work).indexers, (s.withWork i work).IndexerSound crates indexer := by
  intro indexer hmem
  rcases mem_modify hmem with hold | ⟨old, hi, rfl⟩
  · exact (h indexer hold).mono rfl (List.Subset.refl _)
  · exact ⟨(h old (List.mem_of_getElem? hi)).model, hwork.mono (List.Subset.refl _)⟩

theorem IdentityInv.withWork (h : s.IdentityInv crates) {i : ℕ} {work : VectorWork}
    (hwork : s.WorkSound crates work) : (s.withWork i work).IdentityInv crates :=
  h.withRows (List.Subset.refl _) rfl (List.Subset.refl _) rfl (sound_withWork h.indexers hwork)

theorem IdentityInv.see (h : s.IdentityInv crates) (files : ModelFiles) :
    (s.see files).IdentityInv crates :=
  h.withRows (List.subset_cons_self _ _) rfl (List.Subset.refl _) rfl fun indexer hmem =>
    (h.indexers indexer hmem).mono rfl (List.subset_cons_self _ _)

theorem identityInv_initial (disk : ModelDisk) (config : EmbedderConfig) :
    (initial disk config).IdentityInv crates where
  rows _ h := absurd h List.not_mem_nil
  recorded _ h := by cases h
  indexers _ h := absurd h List.not_mem_nil

/-! ## The steps keep the invariant -/

/-- A step of a slot sees the files that it builds an embedder of. -/
theorem slotStep_seen {model model' : SlotSystem ℕ VectorSpace}
    {label : SlotSystem.Label ℕ VectorSpace}
    (hstep : s.slotStep crates files model label = some (model', t)) :
    ∃ seen, t = { s with seen } ∧ s.seen ⊆ seen := by
  unfold slotStep at hstep
  split at hstep
  · split_ifs at hstep
    obtain ⟨model'', -, heq⟩ := Option.map_eq_some_iff.1 hstep
    cases heq
    exact ⟨files :: s.seen, rfl, List.subset_cons_self _ _⟩
  · obtain ⟨model'', -, heq⟩ := Option.map_eq_some_iff.1 hstep
    cases heq
    exact ⟨s.seen, rfl, List.Subset.refl _⟩

/-- The model of the slot is built from the files that are found. -/
theorem slotStep_model {model model' : SlotSystem ℕ VectorSpace}
    {label : SlotSystem.Label ℕ VectorSpace}
    (hmodel : model.OfModels fun space => files.space crates = some space)
    (hstep : s.slotStep crates files model label = some (model', t)) :
    model'.OfModels fun space => files.space crates = some space := by
  unfold slotStep at hstep
  split at hstep
  next c space =>
    split_ifs at hstep with hspace
    obtain ⟨model'', hmodel', heq⟩ := Option.map_eq_some_iff.1 hstep
    cases heq
    exact SlotSystem.ofModels_step hmodel (fun c' e he => by cases he; exact hspace) hmodel'
  next hother =>
    obtain ⟨model'', hmodel', heq⟩ := Option.map_eq_some_iff.1 hstep
    cases heq
    exact SlotSystem.ofModels_step hmodel (fun c e he => absurd he (hother c e)) hmodel'

theorem identityInv_openIndexer (h : s.IdentityInv crates) (home : ModelHome) (ext : VecExtension)
    (eager : Bool) : (s.openIndexer crates home ext eager).IdentityInv crates := by
  unfold openIndexer
  dsimp only
  obtain ⟨hspace, hrows⟩ := healLegacyVec0_rows s.db ext
  split
  · exact h.withRows (List.Subset.refl _) hspace hrows rfl fun indexer hmem =>
      (h.indexers indexer hmem).mono rfl (List.Subset.refl _)
  next db hreconciled =>
    obtain ⟨hspace', hrows'⟩ := reconcileEmbedder_rows hreconciled
    have hseen : s.seen ⊆ (if eager then s.see (s.find home s.config) else s).seen := by
      split_ifs
      · exact List.subset_cons_self _ _
      · exact List.Subset.refl _
    have hdisk : (if eager then s.see (s.find home s.config) else s).disk = s.disk := by
      split_ifs <;> rfl
    have horigin : (if eager then s.see (s.find home s.config) else s).origin = s.origin := by
      split_ifs <;> rfl
    refine h.withRows hseen (hspace'.trans hspace) (List.Subset.trans hrows' hrows) horigin
      fun indexer hmem => ?_
    rcases List.mem_append.1 hmem with hold | hnew
    · exact (h.indexers indexer hold).mono hdisk hseen
    · -- the new indexer builds its model from the files that it finds
      rw [List.mem_singleton.1 hnew]
      refine IndexerSound.mono (s := s)
        ⟨SlotSystem.ofModels_init (fun space hmodel => ?_) 0, trivial⟩ hdisk hseen
      split_ifs at hmodel
      · exact hmodel
      · cases hmodel

theorem identityInv_prepare (h : s.IdentityInv crates) (hsha : ∀ bytes, crates.sha256 bytes ≠ [])
    {i : ℕ} (hi : s.indexers[i]? = some indexer) {batch : PublishBatch}
    (hbatch : batch.vectorUpserts = []) {reply : Option (VectorSpace × List Vector32)}
    (hsized : ∀ answer ∈ reply, ∀ vector ∈ answer.2, vector.length = answer.1.dim)
    (hstep : s.prepare crates i indexer batch reply = some t) : t.IdentityInv crates := by
  unfold prepare at hstep
  split at hstep
  · cases hstep
    refine h.withWork ?_
    show (batch.prepareSemantic .needPending).vectorUpserts = []
    unfold PublishBatch.prepareSemantic PublishBatch.prepareNeedPending
    dsimp only
    split_ifs
    · exact hbatch
    · rfl
  next space vectors =>
    dsimp only at hstep
    split_ifs at hstep with hreply
    obtain ⟨hborrow, hne, hlength⟩ := hreply
    cases hstep
    have hbuilt := (h.indexers indexer (List.mem_of_getElem? hi)).model.borrows space hborrow
    refine (h.see _).withWork ?_
    obtain ⟨vector, rest, rfl⟩ : ∃ vector rest, vectors = vector :: rest := by
      cases vectors with
      | nil => exact absurd (List.length_eq_zero_iff.1 hlength.symm) hne
      | cons vector rest => exact ⟨vector, rest, rfl⟩
    refine ⟨vectorFingerprint crates (s.find indexer.home indexer.config) vector.length, ?_,
      deriveFingerprint_ne hsha _ _, ⟨_, List.mem_cons_self, rfl, hbuilt⟩,
      hsized _ rfl vector List.mem_cons_self⟩
    unfold PublishBatch.prepareSemantic
    dsimp only
    rw [if_neg hne, if_pos hlength]
    rfl

/-- **A publish with vectors** leaves rows of its own fingerprint only. -/
theorem identityInv_publish (h : s.IdentityInv crates) (hsha : Function.Injective crates.sha256)
    {batch : PublishBatch} (hwork : s.WorkSound crates (.publish batch (some space)))
    {ext : VecExtension} {now : ℤ} {receipt : PublishReceipt}
    (hpub : publish ext now s.db batch = .ok (db, receipt))
    (hseen : s.seen ⊆ t.seen) (hdb : t.db = db)
    (horigin : t.origin = s.origin.produced (s.writtenIds batch) space)
    (hindexers : ∀ indexer ∈ t.indexers, t.IndexerSound crates indexer) : t.IdentityInv crates := by
  obtain ⟨written, hp⟩ := publish_spec hpub
  have hvectorSpace := publish_vectorSpace hpub hp
  have hrow' : ∀ row ∈ t.db.vectors.rows, row ∈ written.vectors.rows := by
    intro row hrow
    rw [hdb, hp.vectors] at hrow
    exact (List.mem_filter.1 (List.mem_filter.1 hrow).1).1
  obtain ⟨fingerprint, hfingerprint, hne, hstands, hdim⟩ := hwork
  by_cases hlive : ∃ row ∈ batch.vectorUpserts,
      (s.db.upsertSymbols batch.symbolUpserts).hasSymbol row.1 = true
  · have hrecorded : t.db.vectorSpace = some fingerprint := by
      rw [hdb, hvectorSpace]
      exact upsertVectorSpaceAndVectors_vectorSpace hp.vectorStep hfingerprint hlive
    have hrows := upsertVectorSpaceAndVectors_rows hp.vectorStep hfingerprint hlive
    refine ⟨fun row hrow => ⟨fingerprint, hrecorded, ?_⟩, fun recorded hmem => ?_, hindexers⟩
    · have hrow := hrow' row hrow
      rw [hrows, mem_upsertAll] at hrow
      rcases hrow with ⟨hkept, -⟩ | hnew
      · -- a row that stays was recorded under the same digest
        obtain ⟨hold, hsame⟩ := mem_keptVectors hkept
        obtain ⟨recorded, hspace, hlength, space', hfrom, hstands'⟩ := h.rows row hold
        obtain ⟨hne', space'', hstands'', hdim''⟩ := h.recorded recorded hspace
        have heq : recorded.digest = fingerprint.digest := by
          have hsame : s.db.spaceChanged fingerprint = false := hsame
          unfold Database.spaceChanged at hsame
          rw [hspace] at hsame
          simpa [hne'] using hsame
        rw [heq] at hstands' hstands''
        refine ⟨?_, ?_⟩
        · rw [hlength, hdim, ← hdim'', hstands''.dim_eq hsha hstands]
        · rw [horigin]
          unfold Origins.produced
          split_ifs
          · exact ⟨space, rfl, hstands.mono hseen⟩
          · exact ⟨space', hfrom, hstands'.mono hseen⟩
      · have hmem := mem_of_mem_build hnew
        refine ⟨upsertVectorSpaceAndVectors_dim hp.vectorStep hfingerprint hmem, space, ?_,
          hstands.mono hseen⟩
        have hwritten : row.1 ∈ s.writtenIds batch := by
          obtain ⟨hup, hsymbol⟩ := List.mem_filter.1 hmem
          exact List.mem_filter.2 ⟨List.mem_map_of_mem hup, hsymbol⟩
        rw [horigin]
        unfold Origins.produced
        rw [if_pos hwritten]
    · rw [hrecorded] at hmem
      cases hmem
      exact ⟨hne, space, hstands.mono hseen, hdim.symm⟩
  · have hnot : ∀ row ∈ batch.vectorUpserts,
        ¬ ((s.db.upsertSymbols batch.symbolUpserts).upsertEdges batch.edgeUpserts).hasSymbol row.1 =
          true := fun row hrow hsymbol => hlive ⟨row, hrow, hsymbol⟩
    have hwritten := hp.vectorStep.symm.trans (upsertVectorSpaceAndVectors_unwritten hnot)
    cases hwritten
    have hids : s.writtenIds batch = [] := by
      refine List.filter_eq_nil_iff.2 fun id hid => ?_
      obtain ⟨row, hrow, rfl⟩ := List.mem_map.1 hid
      exact hnot row hrow
    rw [hids] at horigin
    exact h.withRows hseen (by rw [hdb, hvectorSpace]; rfl) hrow' horigin hindexers

theorem identityInv_commit (h : s.IdentityInv crates) (hsha : Function.Injective crates.sha256)
    {i : ℕ} {batch : PublishBatch} {space : Option VectorSpace}
    (hwork : s.WorkSound crates (.publish batch space)) (ext : VecExtension) (now : ℤ) :
    (s.commit i ext now batch space).IdentityInv crates := by
  have hidle : s.WorkSound crates .idle := trivial
  unfold commit
  dsimp only
  split
  · exact h.withWork hidle
  next db receipt hpub =>
    have hindexers := sound_withWork h.indexers (i := i) hidle
    cases space with
    | none =>
      obtain ⟨written, hp⟩ := publish_spec hpub
      have hwritten := hp.vectorStep.symm.trans (upsertVectorSpaceAndVectors_nil hwork)
      cases hwritten
      have hspace : db.vectorSpace = s.db.vectorSpace := (publish_vectorSpace hpub hp).trans rfl
      refine h.withRows (List.Subset.refl _) hspace (fun row hrow => ?_) rfl
        fun indexer hmem => (hindexers indexer hmem).mono rfl (List.Subset.refl _)
      rw [hp.vectors] at hrow
      exact (List.mem_filter.1 (List.mem_filter.1 hrow).1).1
    | some space =>
      exact identityInv_publish h hsha hwork hpub (List.Subset.refl _) rfl rfl
        fun indexer hmem => (hindexers indexer hmem).mono rfl (List.Subset.refl _)

/-- The vectors of a drain are those of the reply. -/
theorem embedSymbol_ok {db db' : Database} {ext : VecExtension} {dim : ℕ}
    {answer : Except String (List Vector32)} {vectors : List Vector32}
    (h : db.embedSymbol ext (.answered dim answer) = (db', .ok vectors)) : answer = .ok vectors := by
  unfold Database.embedSymbol at h
  dsimp only at h
  split at h
  · cases h
  · split at h
    · cases h
    · split_ifs at h
      · cases h
        rfl
      · cases h

theorem identityInv_drainRow (h : s.IdentityInv crates) {i : ℕ} {config : OwnerConfig}
    {row : DueQueueRow} {now : ℤ} {reply : Option (VectorSpace × Except String (List Vector32))}
    (hsized : ∀ answer ∈ reply, ∀ vectors, answer.2 = .ok vectors →
      ∀ vector ∈ vectors, vector.length = answer.1.dim)
    (hstep : s.drainRow i indexer config row now reply = some t) : t.IdentityInv crates := by
  have hsame : ∀ db : Database, db.vectorSpace = s.db.vectorSpace →
      db.vectors.rows ⊆ s.db.vectors.rows → IdentityInv crates { s with db } := fun db hspace hrows =>
    h.withRows (List.Subset.refl _) hspace hrows rfl fun indexer hmem =>
      (h.indexers indexer hmem).mono rfl (List.Subset.refl _)
  unfold drainRow at hstep
  split at hstep
  · cases hstep
    obtain ⟨hspace, hrows⟩ := removeStaleQueueRow_rows s.db row.symbolId
    exact hsame _ hspace hrows
  · cases hstep
    exact hsame _ rfl (List.Subset.refl _)
  next space answer _ =>
    obtain ⟨hspace, hrows⟩ := embedSymbol_rows s.db indexer.ext (.answered space.dim answer)
    split_ifs at hstep
    split at hstep
    next db message hembed =>
      rw [hembed] at hspace hrows
      cases hstep
      exact hsame _ hspace hrows
    next db vectors hembed =>
      have hanswer := embedSymbol_ok hembed
      rw [hembed] at hspace hrows
      cases hstep
      exact (hsame db hspace hrows).withWork (hsized _ rfl vectors hanswer)

/-- **The success write of a drain** under the recorded fingerprint. -/
theorem identityInv_persist (h : s.IdentityInv crates) (hsha : Function.Injective crates.sha256)
    {i : ℕ} {ext : VecExtension} {row : DueQueueRow} {vectors : List Vector32}
    (hsized : ∀ vector ∈ vectors, vector.length = space.dim)
    (hgood : s.db.hasSymbol row.symbolId = true →
      ∃ recorded ∈ s.db.vectorSpace, s.StandsFor crates recorded.digest space) :
    (s.persist i ext row vectors space).IdentityInv crates := by
  have hidle : s.WorkSound crates .idle := trivial
  unfold persist
  dsimp only
  split
  · exact h.withWork hidle
  next db hpersist =>
    obtain ⟨hspace, hrows⟩ := persistSuccess_rows hpersist
    refine ⟨fun stored hstored => ?_, fun recorded hrecorded => ?_, fun indexer hmem =>
      (sound_withWork h.indexers hidle indexer hmem).mono rfl (List.Subset.refl _)⟩
    · -- an old row keeps its length, and its vector is the one of the drain or the old one
      show ∃ recorded, db.vectorSpace = some recorded ∧ _ ∧ ∃ space',
        s.origin.produced ([row.symbolId].filter s.db.hasSymbol) space stored.1 = some space' ∧ _
      rw [hspace]
      rcases hrows stored hstored with hold | ⟨hid, hvector, hlive⟩
      · obtain ⟨recorded, hrecorded, hlength, space', hfrom, hstands⟩ := h.rows stored hold
        refine ⟨recorded, hrecorded, hlength, ?_⟩
        unfold Origins.produced
        split_ifs with hmem
        · obtain ⟨-, hlive⟩ := List.mem_filter.1 hmem
          obtain ⟨recorded', hrecorded', hstands'⟩ := hgood
            (List.mem_singleton.1 (List.mem_filter.1 hmem).1 ▸ hlive)
          obtain rfl := Option.some.inj (hrecorded.symm.trans hrecorded')
          exact ⟨space, rfl, hstands'⟩
        · exact ⟨space', hfrom, hstands⟩
      · obtain ⟨recorded, hrecorded, hstands⟩ := hgood hlive
        obtain ⟨-, space', hstands', hdim⟩ := h.recorded recorded hrecorded
        refine ⟨recorded, hrecorded, ?_, space, ?_, hstands⟩
        · rw [hsized stored.2 hvector, ← hdim, hstands.dim_eq hsha hstands']
        · unfold Origins.produced
          rw [if_pos (List.mem_filter.2 ⟨List.mem_singleton.2 hid, hid ▸ hlive⟩)]
    · change recorded ∈ db.vectorSpace at hrecorded
      rw [hspace] at hrecorded
      exact h.recorded recorded hrecorded

/-- **One step** keeps the invariant. -/
theorem identityInv_step (hsha : Function.Injective crates.sha256)
    (hne : ∀ bytes, crates.sha256 bytes ≠ []) (s : SemanticSystem) (label : SemanticLabel)
    (t : SemanticSystem) (h : s.IdentityInv crates)
    (hgood : Ordinary label ∧ s.KeepsSpace crates label) (hstep : s.step crates label = some t) :
    t.IdentityInv crates := by
  have hsame : ∀ indexer ∈ s.indexers, s.IndexerSound crates indexer := h.indexers
  cases label with
  | changeFiles disk => exact absurd hgood.1 id
  | configure config =>
    cases hstep
    exact h.withRows (List.Subset.refl _) rfl (List.Subset.refl _) rfl fun indexer hmem =>
      (hsame indexer hmem).mono rfl (List.Subset.refl _)
  | openIndexer home ext eager =>
    cases hstep
    exact identityInv_openIndexer h home ext eager
  | openEngine home engine eager =>
    cases hstep
    obtain ⟨hspace, hrows⟩ := healLegacyVec0_rows s.db engine.sql.ext
    exact h.withRows (List.subset_cons_self _ _) hspace hrows rfl fun indexer hmem =>
      (hsame indexer hmem).mono rfl (List.subset_cons_self _ _)
  | indexerModel i label =>
    obtain ⟨indexer, hi, hstep⟩ := Option.bind_eq_some_iff.1 hstep
    obtain ⟨⟨model, s'⟩, hslot, heq⟩ := Option.bind_eq_some_iff.1 hstep
    cases heq
    have hmodel := slotStep_model (hsame indexer (List.mem_of_getElem? hi)).model hslot
    obtain ⟨seen, rfl, hseen⟩ := slotStep_seen hslot
    refine h.withRows hseen rfl (List.Subset.refl _) rfl fun other hmem => ?_
    rcases mem_modify hmem with hold | ⟨old, hold, rfl⟩
    · exact (hsame other hold).mono rfl hseen
    · obtain rfl := Option.some.inj (hi.symm.trans hold)
      exact ⟨hmodel, (hsame indexer (List.mem_of_getElem? hi)).work.mono hseen⟩
  | engineModel g label =>
    obtain ⟨engine, hg, hstep⟩ := Option.bind_eq_some_iff.1 hstep
    obtain ⟨⟨model, s'⟩, hslot, heq⟩ := Option.bind_eq_some_iff.1 hstep
    cases heq
    obtain ⟨seen, rfl, hseen⟩ := slotStep_seen hslot
    exact h.withRows hseen rfl (List.Subset.refl _) rfl fun indexer hmem =>
      (hsame indexer hmem).mono rfl hseen
  | prepare i batch reply =>
    obtain ⟨indexer, hi, hstep⟩ := Option.bind_eq_some_iff.1 hstep
    split at hstep
    · split_ifs at hstep with hbatch
      exact identityInv_prepare h hne hi hbatch hgood.1 hstep
    · cases hstep
  | commit i now =>
    obtain ⟨indexer, hi, hstep⟩ := Option.bind_eq_some_iff.1 hstep
    split at hstep
    next batch space hwork =>
      cases hstep
      have hsound := (hsame indexer (List.mem_of_getElem? hi)).work
      rw [hwork] at hsound
      exact identityInv_commit h hsha hsound indexer.ext now
    · cases hstep
  | drainRow i config row now reply =>
    obtain ⟨indexer, hi, hstep⟩ := Option.bind_eq_some_iff.1 hstep
    split at hstep
    · exact identityInv_drainRow h hgood.1 hstep
    · cases hstep
  | persist i =>
    obtain ⟨indexer, hi, hstep⟩ := Option.bind_eq_some_iff.1 hstep
    split at hstep
    next row vectors space hwork =>
      cases hstep
      have hsound := (hsame indexer (List.mem_of_getElem? hi)).work
      have hrecorded := hgood.2 indexer hi
      rw [hwork] at hsound
      rw [RecordedFor, hwork] at hrecorded
      exact identityInv_persist h hsha hsound hrecorded
    · cases hstep
  | openSnapshot =>
    cases hstep
    exact h.withRows (List.Subset.refl _) rfl (List.Subset.refl _) rfl fun indexer hmem =>
      (hsame indexer hmem).mono rfl (List.Subset.refl _)
  | search g n space embedText sqlError query k =>
    obtain ⟨engine, hg, hstep⟩ := Option.bind_eq_some_iff.1 hstep
    obtain ⟨snapshot, hn, hstep⟩ := Option.bind_eq_some_iff.1 hstep
    split_ifs at hstep
    cases hstep
    unfold search
    split
    · exact h
    · exact h.withRows (List.Subset.refl _) rfl (List.Subset.refl _) rfl fun indexer hmem =>
        (hsame indexer hmem).mono rfl (List.Subset.refl _)

/-- **Every run** whose drains write under the recorded fingerprint: every row has the recorded
    length and is of an embedder with the recorded fingerprint. -/
theorem identified_of_run {crates : EmbedCrates} (hsha : Function.Injective crates.sha256)
    (hne : ∀ bytes, crates.sha256 bytes ≠ []) (disk : ModelDisk) (config : EmbedderConfig)
    (labels : List SemanticLabel) (s : SemanticSystem)
    (hrun : exec (step crates) (initial disk config) labels = some s)
    (hordinary : ∀ label ∈ labels, Ordinary label)
    (hgood : Always (step crates) (KeepsSpace crates) (initial disk config) labels) :
    s.Identified crates :=
  (exec_invariant (identityInv_step hsha hne) hrun
    ((always_of_forall hordinary _).and hgood) (identityInv_initial disk config)).rows

end SemanticSystem

namespace VectorIdentityExample
open VectorSpaceExample

/-- A digest that is not empty. -/
def crates : EmbedCrates := { VectorSpaceExample.crates with sha256 := fun bytes => 1 :: bytes }

theorem crates_sha256 : Function.Injective crates.sha256 ∧ ∀ bytes, crates.sha256 bytes ≠ [] :=
  ⟨List.cons_injective, fun _ => List.cons_ne_nil _ _⟩

/-- The symbol is published without a vector, and queued. -/
def queued : List SemanticLabel :=
  [.prepare 0 { symbolUpserts := [symbol], reason := .incremental } none, .commit 0 0]

/-- The drain embeds it. -/
def drained : List SemanticLabel :=
  [.drainRow 0 {} ⟨symbol.id, symbol.filePath, 0⟩ 0 (some (space 1, .ok [[0]])), .persist 0]

/-- The first model of a fresh store is loaded by its first drain. -/
def coldStart : List SemanticLabel :=
  .openIndexer home none false :: queued ++
    [.indexerModel 0 (.demand 0 0), .indexerModel 0 (.lock 0),
      .indexerModel 0 (.factoryReturns 0 (.ok (space 1))), .indexerModel 0 (.publish 0)] ++ drained

end VectorIdentityExample

section
open VectorIdentityExample SemanticSystem

set_option maxRecDepth 4000 in
theorem identified_of_run_published : ∃ s,
    exec (step crates) (initial (VectorSpaceExample.disk 1) VectorSpaceExample.config)
        (VectorSpaceExample.published ++ queued ++ drained) = some s ∧
      s.db.vectors.rows = [(VectorSpaceExample.symbol.id, [0])] ∧ s.Identified crates := by
  have hrun : (exec (step crates) (initial (VectorSpaceExample.disk 1) VectorSpaceExample.config)
      (VectorSpaceExample.published ++ queued ++ drained)).map (fun s => s.db.vectors.rows) =
        some [(VectorSpaceExample.symbol.id, [0])] := by
    decide +kernel
  obtain ⟨s, hs, hrows⟩ := Option.map_eq_some_iff.1 hrun
  refine ⟨s, hs, hrows, identified_of_run crates_sha256.1 crates_sha256.2 _ _ _ s hs ?_ ?_⟩
  · simp [VectorSpaceExample.published, queued, drained, Ordinary, VectorSpaceExample.space]
  · decide +kernel

/-- The property for every run. -/
def AlwaysIdentified : Prop :=
  ∀ crates : EmbedCrates, Function.Injective crates.sha256 → (∀ bytes, crates.sha256 bytes ≠ []) →
    ∀ (disk : ModelDisk) (config : EmbedderConfig) (labels : List SemanticLabel) (s : SemanticSystem),
      exec (step crates) (initial disk config) labels = some s →
        (∀ label ∈ labels, Ordinary label) → s.Identified crates

set_option maxRecDepth 4000 in
/-- The drain of a fresh store records no fingerprint. -/
theorem not_alwaysIdentified : ¬ AlwaysIdentified := by
  intro hall
  have hrun : (exec (step crates) (initial (VectorSpaceExample.disk 1) VectorSpaceExample.config)
      coldStart).map (fun s => (s.db.vectors.rows, s.db.vectorSpace)) =
        some ([(VectorSpaceExample.symbol.id, [0])], none) := by
    decide +kernel
  obtain ⟨s, hs, hpair⟩ := Option.map_eq_some_iff.1 hrun
  rw [Prod.mk.injEq] at hpair
  obtain ⟨hrows, hspace⟩ := hpair
  have hidentified := hall crates crates_sha256.1 crates_sha256.2 _ _ _ s hs
    (by simp [coldStart, queued, drained, Ordinary, VectorSpaceExample.space])
  obtain ⟨recorded, hrecorded, -⟩ := hidentified _ (by rw [hrows]; exact List.mem_singleton_self _)
  rw [hspace] at hrecorded
  cases hrecorded

end

end Cognis
