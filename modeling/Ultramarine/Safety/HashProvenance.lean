import Ultramarine.Safety.BlobChain
import Ultramarine.State.Synced

/-!
# Where the keccak hashes of blob metadata come from

A metadata row keeps a keccak hash for every blob, and a notice for the blob has to name it. The
hashes of a row are put there

* by the proposer of the block, from the bundle of its engine, before the bundle is verified;
* with a received proposal, from its verified sidecars;
* with a `Full` package, from its verified sidecars, in the order in which the package lists them;
* with a `MetadataOnly` package, from its notices, before the notices are verified;
* by `handle_archive_notice`, which replaces a placeholder.

A restream copies a row, archiving and pruning rewrite one, and none of them makes a hash.

`Event.HashesVerified` says what a message has to bring where nothing is checked: the engine's bundle
verifies, a `Full` package lists its sidecars in the order of the commitments, and the notices of a
`MetadataOnly` package are signed by its proposer.

Result: `stored_hashes_traced`: in every run of such messages every stored hash is the placeholder,
that of a verified blob, or that of a verified notice.
-/

namespace Ultramarine

open Lib Ssz Prog

/-! ## Sources -/

/-- The verifier accepts a batch with this blob. -/
def KzgVerified (o : Oracles) (entry : Blob × KzgCommitment × KzgProof) : Prop :=
  ∃ batch, entry ∈ batch ∧ o.verifyBlobKzgProofBatch batch = true

/-- The validator a row names as its proposer. -/
def BlobCore.proposer? (cfg : Config) (c : BlobCore) : Option Address :=
  (c.proposerIndexHint.bind fun i => cfg.validators.validators[i]?).map (·.address)

/-- The notice is for the height of the row, from the proposer of the row, and signed. -/
structure ArchiveNotice.VerifiedFor (cfg : Config) (c : BlobCore) (n : ArchiveNotice) : Prop where
  height : n.body.height = c.height
  proposer : c.proposer? cfg = some n.body.archivedBy
  signed : ∃ v, cfg.validators.getByAddress n.body.archivedBy = some v ∧
    n.verify cfg.oracles v.publicKey = true

/-- What the hash at index `i` of a row may be: the placeholder, the hash of a blob that is verified
against the commitment of the index, or the hash of a verified notice for the index. -/
inductive HashSource (cfg : Config) (c : BlobCore) (i : Nat) : B256 → Prop
  | placeholder : HashSource cfg c i 0
  | blob {b : Blob} {commitment : KzgCommitment} {proof : KzgProof}
      (hcommitment : c.blobKzgCommitments[i]? = some commitment)
      (hverified : KzgVerified cfg.oracles (b, commitment, proof)) :
      HashSource cfg c i (b.keccakHash cfg.oracles)
  | notice {n : ArchiveNotice} (hindex : n.body.blobIndex = i) (hverified : n.VerifiedFor cfg c) :
      HashSource cfg c i n.body.blobKeccak

/-- Every hash of the row has a source. -/
def BlobMetadata.Traced (cfg : Config) (row : BlobMetadata) : Prop :=
  ∀ i k, row.blobKeccakHashes[i]? = some k → HashSource cfg row.core i k

/-- A row for a height: its hashes have sources, and it names a proposer if it has blobs. -/
structure BlobMetadata.Accounted (cfg : Config) (height : Height) (row : BlobMetadata) : Prop where
  height_eq : row.height = height
  traced : row.Traced cfg
  named : row.blobKzgCommitments ≠ [] → (row.core.proposer? cfg).isSome

/-- What a message has to bring for the hashes it stores unchecked. -/
def Event.HashesVerified (cfg : Config) : Event → Prop
  | .getValue _ _ _ (some b) => bundleCommitments b.bundle ≠ [] →
    (cfg.validatorIndex cfg.address).isSome ∧
      checkBundle (bundleCommitments b.bundle).length b.bundle = .ok () ∧
      cfg.oracles.verifyBlobKzgProofBatch ((b.bundle.map BlobsBundle.entries).getD []) = true
  | .processSyncedValue _ _ _ (.full value _ sidecars _ _) =>
    sidecars = [] ∨ sidecars.map (·.kzgCommitment) = value.metadata.blobKzgCommitments
  | .processSyncedValue height _ proposer (.metadataOnly value notices _ _) =>
    value.metadata.blobKzgCommitments ≠ [] → (cfg.validatorIndex proposer).isSome ∧
      ∀ n ∈ notices, n.body.blobIndex < value.metadata.blobKzgCommitments.length →
        n.body.height = height ∧ n.body.archivedBy = proposer ∧
          ∃ v, cfg.validators.getByAddress proposer = some v ∧
            n.verify cfg.oracles v.publicKey = true
  | _ => True

variable {height : Height} {k : B256} {m : Machine Disk Memory} {notices : List ArchiveNotice}
  {c : BlobCore} {ev : Event} {i : Nat} {proposer : Address} {round : Round} {row : BlobMetadata}
  {slot : Slot}

/-! ## New rows -/

section NewRows

variable {cfg : Config} {height : Height} {root : B256} {commitments : List KzgCommitment}
  {keccaks : List B256} {header : ExecutionPayloadHeader} {hint : Option Nat} {row : BlobMetadata}
  {proposer : Address}

/-- A new row has no other hashes than those it is made from. -/
theorem keccak_of_blockMetadata?
    (h : blockMetadata? height root commitments keccaks header hint = some row)
    (hk : row.blobKeccakHashes[i]? = some k) : keccaks[i]? = some k := by
  unfold blockMetadata? at h
  split at h
  · cases h
    cases hk
  · unfold BlobMetadata.new? at h
    split at h
    · cases h
      exact hk
    · cases h

/-- An index that was looked up names the validator it was looked up for. -/
theorem BlobCore.proposer?_eq_some (hhint : c.proposerIndexHint = cfg.validatorIndex proposer)
    (hproposer : (cfg.validatorIndex proposer).isSome) : c.proposer? cfg = some proposer := by
  obtain ⟨i, hi⟩ := Option.isSome_iff_exists.1 hproposer
  obtain ⟨v, hv, rfl⟩ := ValidatorSet.validatorIndex_eq_some hi
  unfold BlobCore.proposer?
  rw [hhint, hi, Option.bind_some, hv]
  rfl

theorem accounted_of_blockMetadata?
    (h : blockMetadata? height root commitments keccaks header (cfg.validatorIndex proposer) =
      some row)
    (hproposer : commitments ≠ [] → (cfg.validatorIndex proposer).isSome)
    (hsource : ∀ i k, keccaks[i]? = some k → row.blobKzgCommitments ≠ [] →
      HashSource cfg row.core i k) :
    row.Accounted cfg height := by
  have hcore := core_blockMetadata? h
  have hcommitments : row.blobKzgCommitments = commitments :=
    congrArg BlobCore.blobKzgCommitments hcore
  have hhint : row.core.proposerIndexHint = cfg.validatorIndex proposer :=
    congrArg BlobCore.proposerIndexHint hcore
  refine ⟨congrArg BlobCore.height hcore, fun i k hk => ?_, fun hne => ?_⟩
  · refine hsource i k (keccak_of_blockMetadata? h hk) fun hnil => ?_
    have hlt := (List.getElem?_eq_some_iff.1 hk).1
    rw [row.keccak_length, hnil] at hlt
    cases hlt
  · rw [BlobCore.proposer?_eq_some hhint (hproposer (hcommitments ▸ hne))]
    rfl

/-- A row made from verified blobs, each under the commitment it is verified against. -/
theorem accounted_of_entries {entries : List (Blob × KzgCommitment × KzgProof)}
    (h : blockMetadata? height root (entries.map (·.2.1))
      (entries.map fun e => e.1.keccakHash cfg.oracles) header (cfg.validatorIndex proposer) =
        some row)
    (hproposer : entries ≠ [] → (cfg.validatorIndex proposer).isSome)
    (hverified : entries ≠ [] → cfg.oracles.verifyBlobKzgProofBatch entries = true) :
    row.Accounted cfg height := by
  refine accounted_of_blockMetadata? h (fun hne => hproposer fun hnil => hne (by rw [hnil]; rfl)) ?_
  intro i k hk _
  rw [List.getElem?_map] at hk
  obtain ⟨⟨b, commitment, proof⟩, he, rfl⟩ := Option.map_eq_some_iff.1 hk
  have hmem := List.mem_of_getElem? he
  refine @HashSource.blob cfg row.core i b commitment proof ?_
    ⟨entries, hmem, hverified (List.ne_nil_of_mem hmem)⟩
  rw [core_blockMetadata? h]
  show (entries.map (·.2.1))[i]? = some commitment
  rw [List.getElem?_map, he]
  rfl

/-- The same for a row made from sidecars. -/
theorem accounted_of_sidecars {sidecars : List BlobSidecar}
    (h : blockMetadata? height root (sidecars.map (·.kzgCommitment))
      (sidecars.map (·.blobKeccak cfg.oracles)) header (cfg.validatorIndex proposer) = some row)
    (hproposer : sidecars ≠ [] → (cfg.validatorIndex proposer).isSome)
    (hkzg : kzgOk cfg sidecars) : row.Accounted cfg height := by
  have hne : sidecars.map (fun s => (s.blob, s.kzgCommitment, s.kzgProof)) ≠ [] →
      sidecars ≠ [] := fun hne hnil => hne (by rw [hnil]; rfl)
  refine @accounted_of_entries cfg height root header row proposer
    (sidecars.map fun s => (s.blob, s.kzgCommitment, s.kzgProof)) ?_ (fun h => hproposer (hne h))
    fun h => hkzg.resolve_left (hne h)
  rw [List.map_map, List.map_map]
  exact h

/-- The hashes that a `MetadataOnly` package brings are placeholders and hashes of its notices. -/
theorem source_of_foldl_set :
    ∀ {hashes : List B256}, (notices.foldl (fun hashes n => hashes.set n.body.blobIndex
        n.body.blobKeccak) hashes)[i]? = some k →
      hashes[i]? = some k ∨ ∃ n ∈ notices, n.body.blobIndex = i ∧ n.body.blobKeccak = k := by
  induction notices with
  | nil => exact fun h => .inl h
  | cons n notices ih =>
    intro hashes h
    rcases ih h with h | ⟨n', hn', hindex, hhash⟩
    · by_cases hi : n.body.blobIndex = i
      · subst hi
        rw [List.getElem?_set_self'] at h
        obtain ⟨_, _, hhash⟩ := Option.map_eq_some_iff.1 h
        exact .inr ⟨n, List.mem_cons_self, rfl, hhash⟩
      · rw [List.getElem?_set_ne hi] at h
        exact .inl h
    · exact .inr ⟨n', List.mem_cons_of_mem _ hn', hindex, hhash⟩

theorem accounted_of_notices
    (h : blockMetadata? height root commitments (noticeKeccaks commitments.length notices) header (cfg.validatorIndex proposer) = some row)
    (hverified : commitments ≠ [] → (cfg.validatorIndex proposer).isSome ∧ ∀ n ∈ notices, n.body.blobIndex < commitments.length → n.body.height = height ∧ n.body.archivedBy = proposer ∧ ∃ v, cfg.validators.getByAddress proposer = some v ∧ n.verify cfg.oracles v.publicKey = true) :
    row.Accounted cfg height := by
  have hcore := core_blockMetadata? h
  have hcommitments : row.blobKzgCommitments = commitments :=
    congrArg BlobCore.blobKzgCommitments hcore
  refine accounted_of_blockMetadata? h (fun hne => (hverified hne).1) fun i k hk hne => ?_
  rw [hcommitments] at hne
  obtain ⟨hproposer, hnotices⟩ := hverified hne
  have hlt := (List.getElem?_eq_some_iff.1 hk).1
  rw [length_noticeKeccaks] at hlt
  rcases source_of_foldl_set hk with hzero | ⟨n, hn, rfl, rfl⟩
  · rw [List.getElem?_replicate, if_pos hlt] at hzero
    cases hzero
    exact .placeholder
  · obtain ⟨hheight, harchiver, hsigned⟩ := hnotices n hn hlt
    refine .notice rfl ⟨hheight.trans (congrArg BlobCore.height hcore).symm, ?_, ?_⟩
    · rw [harchiver]
      exact BlobCore.proposer?_eq_some (congrArg BlobCore.proposerIndexHint hcore) hproposer
    · rw [harchiver]
      exact hsigned

end NewRows

/-! ## Stored rows -/

/-- Every row of the two tables is accounted for. -/
structure RowsAccounted (cfg : Config) (s : Store) : Prop where
  undecided : Table.All (fun slot row => row.Accounted cfg slot.height) s.blobMetadataUndecided
  decided : Table.All (fun height row => row.Accounted cfg height) s.blobMetadataDecided

section Rows

variable {cfg : Config} {height : Height} {row row' : BlobMetadata} {s : Store}

/-- The sources are read from the core. -/
theorem BlobMetadata.Accounted.congr (h : row.Accounted cfg height) (hcore : row'.core = row.core)
    (hkeccaks : row'.blobKeccakHashes = row.blobKeccakHashes) : row'.Accounted cfg height := by
  refine ⟨(congrArg BlobCore.height hcore).trans h.height_eq, fun i k hk => ?_, fun hne => ?_⟩
  · rw [hcore]
    rw [hkeccaks] at hk
    exact h.traced i k hk
  · rw [hcore]
    exact h.named fun hnil => hne ((congrArg BlobCore.blobKzgCommitments hcore).trans hnil)

theorem RowsAccounted.getBlobMetadata (h : RowsAccounted cfg s)
    (hget : s.getBlobMetadata height = .ok (some row)) : row.Accounted cfg height := by
  obtain ⟨stored, hstored, hhydrate⟩ := Store.getBlobMetadata_eq_some_iff.1 hget
  exact (h.decided _ _ hstored).congr (Store.core_hydrate hhydrate) (Store.keccaks_hydrate hhydrate)

/-- The row a restream copies. -/
theorem RowsAccounted.loadRestream {d : Disk} (h : RowsAccounted cfg d.store) {r : Restream}
    (hload : loadRestream cfg d slot = some r) : r.metadata.Accounted cfg slot.height := by
  have hload := loadRestream_metadata hload
  unfold Store.loadBlobMetadataForRound at hload
  split at hload
  · rename_i row hrow
    cases hload
    exact h.undecided _ _ hrow
  · exact h.getBlobMetadata hload

/-- A checked notice is from the proposer its row names. -/
theorem ArchiveNotice.Checked.verifiedFor {n : ArchiveNotice} (hn : n.Checked cfg s row)
    (h : row.Accounted cfg n.body.height) : n.VerifiedFor cfg row.core := by
  have hne : row.blobKzgCommitments ≠ [] := by
    intro hnil
    have hlt := hn.index_lt
    unfold BlobMetadata.blobCount at hlt
    rw [hnil] at hlt
    cases hlt
  obtain ⟨proposer, hproposer⟩ := Option.isSome_iff_exists.1 (h.named hne)
  refine ⟨h.height_eq.symm, ?_, hn.signed⟩
  obtain ⟨v, hv, rfl⟩ := Option.map_eq_some_iff.1 hproposer
  have hexpected := hn.proposer
  unfold proposerAddressForHeight at hexpected
  rw [show row.proposerIndexHint.bind (fun i => cfg.validators.validators[i]?) = some v from hv]
    at hexpected
  have harchiver : n.body.archivedBy = v.address := by simpa using hexpected
  rw [harchiver, hproposer]

/-- A row with a notice recorded. -/
theorem BlobMetadata.Accounted.record {n : ArchiveNotice} (hn : n.Checked cfg s row)
    (h : row.Accounted cfg n.body.height)
    (hrow : (row.updateKeccakHash n.body.blobIndex n.body.blobKeccak).setArchiveRecord?
      (.fromNotice n.transmit) = some row') : row'.Accounted cfg n.body.height := by
  have hupdated : (row.updateKeccakHash n.body.blobIndex n.body.blobKeccak).Accounted cfg
      n.body.height := by
    have hcore := row.core_updateKeccakHash n.body.blobIndex n.body.blobKeccak
    refine ⟨(congrArg BlobCore.height hcore).trans h.height_eq, fun i k hk => ?_, fun hne => ?_⟩
    · rw [hcore]
      rcases BlobMetadata.keccak_updateKeccakHash hk with hk | ⟨rfl, rfl⟩
      · exact h.traced i k hk
      · exact .notice rfl (hn.verifiedFor h)
    · rw [hcore]
      exact h.named fun hnil => hne ((congrArg BlobCore.blobKzgCommitments hcore).trans hnil)
  exact hupdated.congr (BlobMetadata.core_setArchiveRecord? hrow)
    (BlobMetadata.keccaks_setArchiveRecord? hrow)

/-- What pruning rewrites. -/
theorem PruneEffect.accounted (hw : PruneEffect m (.store (.updateBlobMetadata height row)))
    (h : RowsAccounted cfg m.disk.store) : row.Accounted cfg height := by
  cases hw with
  | @pruned _ metadata hprunable =>
    obtain ⟨md, hmd, hcore, _⟩ := hprunable.loaded
    obtain ⟨stored, hstored, hkeccaks⟩ := hprunable.keccaks
    have hmdcore : md.core = stored.core := by
      obtain ⟨stored', hstored', hhydrate⟩ := Store.getBlobMetadata_eq_some_iff.1 hmd
      cases hstored.symm.trans hstored'
      exact Store.core_hydrate hhydrate
    exact (h.decided _ _ hstored).congr (hcore.symm.trans hmdcore) hkeccaks

/-- What archiving rewrites. -/
theorem ArchiveEffect.accounted
    (hw : ArchiveEffect cfg m (.store (.updateBlobMetadata height row)))
    (h : RowsAccounted cfg m.disk.store) : row.Accounted cfg height := by
  cases hw with
  | @update n metadata _ s hn hstore hrow =>
    -- the record that has just been stored is in another table
    have hdecided : s.blobMetadataDecided = m.disk.store.blobMetadataDecided := by
      rw [hstore]
      rfl
    obtain ⟨stored, hstored, hhydrate⟩ := Store.getBlobMetadata_eq_some_iff.1 hn.metadata_eq
    rw [hdecided] at hstored
    have hmetadata := (h.decided _ _ hstored).congr (Store.core_hydrate hhydrate)
      (Store.keccaks_hydrate hhydrate)
    exact hmetadata.record hn hrow
  | prune hw => exact hw.accounted h

/-- **One write keeps the rows accounted for** if the row it stores is. -/
theorem RowsAccounted.apply (h : RowsAccounted cfg s) {w : StoreWrite}
    (hoffer : ∀ slot row, w = .insertBlobMetadataUndecided slot row →
      row.Accounted cfg slot.height)
    (hupdate : ∀ height row, w = .updateBlobMetadata height row → row.Accounted cfg height) :
    RowsAccounted cfg (s.apply w) := by
  cases w with
  | insertBlobMetadataUndecided slot row =>
    exact ⟨h.undecided.insertIfNew fun _ => hoffer slot row rfl, h.decided⟩
  | updateBlobMetadata height row => exact ⟨h.undecided, h.decided.insert (hupdate height row rfl)⟩
  | deleteBlobMetadataUndecided slot => exact ⟨h.undecided.erase slot, h.decided⟩
  | markBlobMetadataDecided slot =>
    simp only [Store.apply]
    split
    · exact h
    · rename_i row hrow
      exact ⟨h.undecided.erase slot, h.decided.insert (h.undecided _ _ hrow)⟩
  | insertGenesisBlobMetadata =>
    simp only [Store.apply]
    split
    · exact h
    · refine ⟨h.undecided, h.decided.insert ⟨rfl, fun i k hk => ?_, fun hne => absurd rfl hne⟩⟩
      cases hk
  | _ => exact ⟨h.undecided, h.decided⟩

end Rows

/-! ## The rows a message brings -/

/-- A condition on the row that a write puts into the undecided table. -/
def Write.OffersRow (P : Slot → BlobMetadata → Prop) : Write → Prop
  | .store (.insertBlobMetadataUndecided slot row) => P slot row
  | _ => True

/-- The undecided rows that a call writes are accounted for. -/
abbrev OffersAccounted {α : Type} (cfg : Config) (p : Act α) (m : Machine Disk Memory) : Prop :=
  Emits (fun _ w => w.OffersRow fun slot row => row.Accounted cfg slot.height) (p.run m)

section Messages

variable {cfg : Config} {m : Machine Disk Memory}

theorem ArchiveEffect.offersRow {P : Slot → BlobMetadata → Prop} {w : Write}
    (h : ArchiveEffect cfg m w) : w.OffersRow P := by
  cases h with
  | record _ | update _ _ _ => trivial
  | prune h => cases h <;> trivial

/-- The row of an assembled proposal whose sidecars verify. -/
theorem AssembledFrom.accounted {latestBlock : Option ExecutionBlock} {now : Nat}
    {parts : ProposalParts} {payload : ExecutionPayloadV3} {metadata : ValueMetadata}
    {parentRoot : B256} {a : Assembled}
    (h : AssembledFrom cfg m.disk latestBlock now parts payload metadata parentRoot a)
    (hkzg : kzgOk cfg a.sidecars) : a.blobMetadata.Accounted cfg parts.height := by
  have hrow := h.blobMetadata_eq
  rw [h.commitment_eq.1] at hrow
  rw [h.sidecars_eq] at hkzg
  refine accounted_of_sidecars hrow (fun hne => ?_) hkzg
  obtain ⟨_, hok⟩ := h.sidecarsOk hne
  rw [hok.index_eq]
  rfl

theorem receivedProposalPart_accounted (now : Nat) (peer : PeerId) (part : StreamMessage) :
    OffersAccounted cfg (receivedProposalPart cfg now peer part) m := by
  unfold OffersAccounted receivedProposalPart
  rw [run_getMem_bind]
  rcases PartStreamsMap.insert m.mem.streamsMap peer part with ⟨streams, complete⟩
  dsimp only
  rw [run_modifyMem_bind]
  cases complete with
  | none => exact Emits.of_log_nil rfl
  | some parts =>
    dsimp only
    unfold receivedProposal
    rw [run_getMem_bind]
    split
    · exact Emits.of_log_nil rfl
    split
    · refine (Emits.closed _).attempt_bind ?_ (fun a _ => ?_) (fun _ _ => Emits.of_log_nil rfl)
      · unfold assembleAndStoreBlobs
        rw [run_get_bind]
        refine Emits.ofExit_bind fun a ha => ?_
        obtain ⟨payload, metadata, root, hfrom⟩ := assemble_eq_ok.1 ha
        -- the row is written after the sidecars have been verified
        refine (verifyAndStore_writes fun _ _ _ => trivial).bind fun _ hverified => ?_
        obtain ⟨hkzg, _⟩ := returns_verifyAndStore.1 ⟨hverified, rfl⟩
        exact Emits.bind (Emits.write (hfrom.accounted hkzg)) fun _ _ => Emits.of_log_nil rfl
      · refine ((Silent.onlyIf (Silent.modifyMem _)).emits _).bind fun _ _ => ?_
        refine (storeUndecidedProposal_writes trivial).bind fun _ _ => ?_
        exact Emits.bind (Emits.write trivial) fun _ _ => Emits.of_log_nil rfl
    · exact Emits.of_log_nil rfl

theorem promoteSyncedMetadata_accounted (h : row.Accounted cfg slot.height) :
    OffersAccounted cfg (promoteSyncedMetadata cfg slot row) m := by
  unfold OffersAccounted promoteSyncedMetadata
  refine Emits.bind (Emits.write h) fun _ _ => ?_
  exact (markBlobMetadataDecided_writes trivial).bind fun _ _ => Emits.of_log_nil rfl

theorem handleArchiveNotices_accounted (notices : List ArchiveNotice) :
    OffersAccounted cfg (handleArchiveNotices cfg notices) m :=
  (handleArchiveNotices_archives cfg notices m).1.mono fun _ _ h => h.offersRow

theorem acceptFull_accounted {value : Value} {sidecars : List BlobSidecar}
    {signedHeader : Option SignedBeaconBlockHeader}
    (h : ∀ root row, blockMetadata? height root value.metadata.blobKzgCommitments (sidecars.map (·.blobKeccak cfg.oracles)) value.metadata.executionPayloadHeader (cfg.validatorIndex proposer) = some row → row.Accounted cfg height) :
    OffersAccounted cfg (acceptFull cfg height round proposer value sidecars notices signedHeader)
      m := by
  unfold OffersAccounted acceptFull
  rw [run_getDisk_bind]
  split
  · split
    · refine (dropRound_writes fun _ _ _ => trivial).bind fun _ _ => ?_
      exact Emits.bind (Emits.write trivial) fun _ _ => Emits.of_log_nil rfl
    · refine Emits.ofExit_bind fun row hrow => ?_
      have hrow := h _ row (Exit.orPanic_eq_ok.1 hrow)
      refine (promoteSyncedMetadata_accounted hrow).bind fun _ _ => ?_
      refine (storeUndecidedProposal_writes trivial).bind fun _ _ => ?_
      exact (handleArchiveNotices_accounted notices).bind fun _ _ => Emits.of_log_nil rfl
  · exact Emits.of_log_nil rfl

/-- A row needs as many hashes as commitments. -/
theorem commitments_eq_nil {root : B256} {commitments : List KzgCommitment}
    {header : ExecutionPayloadHeader} {hint : Option Nat}
    (h : blockMetadata? height root commitments [] header hint = some row) : commitments = [] := by
  unfold blockMetadata? at h
  split at h
  · rename_i hnil
    exact hnil
  · unfold BlobMetadata.new? at h
    split at h
    · rename_i hlength
      exact List.eq_nil_of_length_eq_zero hlength.2.symm
    · cases h

theorem processSyncedPackage_accounted {package : SyncedValuePackage}
    (hev : (Event.processSyncedValue height round proposer package).HashesVerified cfg) :
    OffersAccounted cfg (processSyncedPackage cfg height round proposer package) m := by
  cases package with
  | full value payload sidecars requests notices =>
    unfold OffersAccounted processSyncedPackage processSyncedFull
    refine (storeSyncedBlockData_writes _ _ trivial).bind fun _ _ => ?_
    split
    · rename_i hnil
      subst hnil
      refine acceptFull_accounted fun root row hrow => ?_
      rw [commitments_eq_nil hrow] at hrow
      exact @accounted_of_sidecars cfg height root _ row proposer [] hrow (fun hne => absurd rfl hne)
        (.inl rfl)
    · rename_i hne
      refine (syncSidecars_writes (fun _ _ _ => trivial) (fun _ w hw => ?_) (fun _ _ => trivial)
        fun _ _ _ => trivial).bind fun result hresult => ?_
      · cases hw <;> trivial
      cases result with
      | none => exact Emits.of_log_nil rfl
      | some signedHeader =>
        obtain ⟨hkzg, _, hok, _⟩ := (@returns_syncSidecars cfg ⟨height, round⟩ _ _ _ _ _ _).1
          ⟨hresult, rfl⟩
        refine acceptFull_accounted fun root row hrow => ?_
        rw [← hev.resolve_left hne] at hrow
        refine accounted_of_sidecars hrow (fun _ => ?_) hkzg
        rw [hok.index_eq]
        rfl
  | metadataOnly value notices payload requests =>
    unfold OffersAccounted processSyncedPackage processSyncedMetadataOnly
    cases payload with
    | none =>
      exact (handleArchiveNotices_accounted notices).bind fun _ _ => Emits.of_log_nil rfl
    | some payload =>
      refine (storeSyncedBlockData_writes _ _ trivial).bind fun _ _ => ?_
      rw [run_getDisk_bind]
      split
      · refine Emits.ofExit_bind fun row hrow => ?_
        have hrow := accounted_of_notices (Exit.orPanic_eq_ok.1 hrow) hev
        refine (promoteSyncedMetadata_accounted hrow).bind fun _ _ => ?_
        rw [run_modifyMem_bind]
        refine (handleArchiveNotices_accounted notices).bind fun _ _ => ?_
        exact (storeUndecidedProposal_writes trivial).bind fun _ _ => Emits.of_log_nil rfl
      · exact Emits.of_log_nil rfl

/-- **The rows a message writes are accounted for.** -/
theorem handle_accounted (hev : ev.HashesVerified cfg) (h : RowsAccounted cfg m.disk.store) :
    OffersAccounted cfg (handle cfg ev) m := by
  -- other messages than proposals and packages say all about their rows by what they offer
  have hoffered : (∀ slot row, OffersMetadata cfg m ev slot row → row.Accounted cfg slot.height) →
      OffersAccounted cfg (handle cfg ev) m := by
    intro hrows
    refine (handle_writes cfg m ev).mono fun m' w hw => ?_
    cases w with
    | blob b => trivial
    | store w =>
      cases w with
      | insertBlobMetadataUndecided slot row => exact hrows slot row hw.offersMetadata
      | _ => trivial
  cases ev with
  | receivedProposalPart now peer part gate =>
    refine Act.logged_emits ?_
    unfold onReceivedProposalPart
    split
    · refine (Emits.closed _).attempt_bind ?_ (fun _ _ => Emits.of_log_nil rfl)
        (fun _ _ => Emits.of_log_nil rfl)
      exact (handleArchiveNotice_archives cfg _ _).1.mono fun _ _ h => h.offersRow
    · refine (receivedProposalPart_accounted now peer part).bind fun value _ => ?_
      cases value with
      | none => exact Emits.of_log_nil rfl
      | some v => exact ((ensureElMatchesClHead_silent gate).bind fun _ => Silent.pure _).emits _
  | processSyncedValue height round proposer package =>
    exact Act.logged_emits (processSyncedPackage_accounted hev)
  | getValue height round gate built =>
    refine hoffered fun slot row hoffer => ?_
    cases hoffer with
    | @built _ _ _ b root _ _ hrow =>
      by_cases hnil : bundleCommitments b.bundle = []
      · rw [hnil] at hrow
        refine accounted_of_blockMetadata? hrow (fun hne => absurd rfl hne) fun i k _ hne => ?_
        exact absurd (congrArg BlobCore.blobKzgCommitments (core_blockMetadata? hrow)) hne
      · obtain ⟨haddress, hbundle, hkzg⟩ := hev hnil
        obtain ⟨hcommitments, hkeccaks⟩ := entries_of_checkBundle hbundle cfg.oracles
        rw [← hcommitments, ← hkeccaks] at hrow
        exact accounted_of_entries hrow (fun _ => haddress) fun _ => hkzg
  | restreamProposal height round validRound address =>
    refine hoffered fun slot row hoffer => ?_
    cases hoffer with
    | restreamed hload =>
      have hrow := h.loadRestream hload
      exact hrow
  | startedRound _ _ | archiveNotice _ | decided _ _ =>
    exact hoffered fun slot row hoffer => by cases hoffer

end Messages

/-! ## Runs -/

/-- Every hash that is stored has a source, and its row is of the height it is stored under. -/
structure Store.HashesTraced (cfg : Config) (s : Store) : Prop where
  undecided : ∀ (slot : Slot) (row : BlobMetadata), s.blobMetadataUndecided[slot]? = some row →
    row.height = slot.height ∧ row.Traced cfg
  decided : ∀ (height : Height) (row : BlobMetadata), s.blobMetadataDecided[height]? = some row →
    row.height = height ∧ row.Traced cfg

/-- A step meets the condition on its message. -/
def Event.HashesVerified.Allows (cfg : Config) (_ : Node) (l : Label) : Prop :=
  ∀ ev, l.event? = some ev → ev.HashesVerified cfg

section Runs

variable {cfg : Config}

theorem keeps_accounted (hev : ev.HashesVerified cfg) (h : RowsAccounted cfg m.disk.store) :
    Keeps (fun d => RowsAccounted cfg d.store) (handle cfg ev) m := by
  intro e he hm'
  have hoffers := handle_accounted hev h e he
  have heffect := handle_writes cfg m ev e he
  obtain ⟨m', w⟩ := e
  cases w with
  | blob b => exact hm'
  | store w =>
    refine hm'.apply (fun slot row hw => ?_) fun height row hw => ?_
    · subst hw
      exact hoffers
    · subst hw
      exact heffect.archives.accounted hm'

theorem keeps_accounted_start (d : Disk) :
    Keeps (fun d => RowsAccounted cfg d.store) (start cfg) (bootMachine cfg d) := by
  refine (start_writes cfg _).mono fun m' w hw hm' => ?_
  cases w with
  | blob b => exact hm'
  | store w =>
    refine hm'.apply (fun slot row hrow => ?_) fun height row hrow => ?_
    · subst hrow
      cases hw with
      | prune hw => cases hw
    · subst hrow
      cases hw with
      | prune hw => exact hw.accounted hm'

theorem accounted_of_reachable {s : Node}
    (h : Node.Reachable cfg (Event.HashesVerified.Allows cfg) s) : RowsAccounted cfg s.disk.store :=
  Node.disk_invariant_of_reach (I := fun d => RowsAccounted cfg d.store)
    ⟨Table.All.empty, Table.All.empty⟩
    (fun _ ev _ hm hok hev => ⟨_, hm, fun _ => id, keeps_accounted (hok ev hev) hm⟩)
    (fun d _ => keeps_accounted_start d) h

/-- **Every stored hash has a source.** In a run whose messages bring verified bundles, sidecars in
the order of the commitments and signed notices, every hash of every metadata row is the placeholder,
the hash of a verified blob with the commitment of the index, or that of a verified notice for the
index. -/
theorem stored_hashes_traced {s : Node}
    (h : Node.Reachable cfg (Event.HashesVerified.Allows cfg) s) : s.disk.store.HashesTraced cfg := by
  have hrows := accounted_of_reachable h
  constructor
  · intro slot row hrow
    exact ⟨(hrows.undecided _ _ hrow).height_eq, (hrows.undecided _ _ hrow).traced⟩
  · intro height row hrow
    exact ⟨(hrows.decided _ _ hrow).height_eq, (hrows.decided _ _ hrow).traced⟩

end Runs

namespace Sample

/-- The proposer's bundle verifies. -/
theorem reachable_verifiedBundle : Node.Reachable (config 2)
    (Event.HashesVerified.Allows (config 2)) (node 2 proposeBlob) := by
  refine Reach.refl.follow ⟨?_, by decide +kernel, ?_, by decide +kernel, trivial⟩
  · rintro ev ⟨⟩
  · rintro ev ⟨⟩ _
    exact ⟨by decide, by decide, rfl⟩

end Sample

open Sample in
/-- The row of the proposer's own block. -/
theorem stored_hashes_traced_built :
    ((node 2 proposeBlob).disk.store.blobMetadataUndecided[Slot.mk 1 (.some 0)]?).map
        (·.blobKeccakHashes) = some [7] ∧
      (node 2 proposeBlob).disk.store.HashesTraced (config 2) :=
  ⟨by decide +kernel, stored_hashes_traced reachable_verifiedBundle⟩

namespace Sample

/-- Nobody has signed an archive notice, a blob is known by its first byte, and the commitment of a
blob is that byte. -/
def strict : Oracles :=
  { oracles with
    hash32Concat := fun a _ => a
    keccak256 := fun bytes => (bytes.headD 0).toBitVec.setWidth 256
    verify := fun k message s => oracles.verify k message s && message != bitVecBytes (9 : B256)
    verifyBlobKzgProofBatch := fun batch => batch.all fun e =>
      e.2.1 = ⟨(e.1.data.headD 0).toBitVec.setWidth 384⟩ }

/-- A node of the network. -/
def strictConfig (i : Nat) : Config := { config i with oracles := strict }

/-- A blob by its first byte. -/
def blobOf (byte : UInt8) : Blob :=
  ⟨byte :: List.replicate 131071 0, by rw [List.length_cons, List.length_replicate]; rfl⟩

/-- The value of a block with two blobs. -/
def twoBlobValue : Value :=
  .new strict ⟨fromPayload strict (payload 1 0 1 2) (some 3), [⟨1⟩, ⟨2⟩], 2, 262144⟩

/-- Its sidecars, as validator 2 makes them. -/
def twoBlobSidecars : List BlobSidecar :=
  sidecarsFrom strict [⟨1⟩, ⟨2⟩] (fromPayload strict (payload 1 0 1 2) (some 3))
    (signHeader (strictConfig 2) ⟨1, 1, BlobMetadata.genesis.computeBlobRoot strict, 0,
      computeBodyRoot strict (fromUltramarineData strict [⟨1⟩, ⟨2⟩]
        (fromPayload strict (payload 1 0 1 2) (some 3)))⟩) 0
    [(blobOf 1, ⟨1⟩, ⟨0⟩), (blobOf 2, ⟨2⟩, ⟨0⟩)]

/-- A notice with a hash and no signature. -/
def forgedNotice : ArchiveNotice := ⟨⟨1, .some 0, 0, ⟨1⟩, 5, "s3", "blob", ⟨2⟩, 0⟩, ⟨0⟩⟩

/-- The node of validator 1 is sent a package for height 1. -/
def sentPackage (package : SyncedValuePackage) : Node :=
  follow (Node.next (strictConfig 1))
    [.start, .handle (.processSyncedValue 1 (.some 0) ⟨2⟩ package)] (.down Disk.empty)

/-- The sidecars in the order 1, 0. -/
def swappedPackage : SyncedValuePackage := .full twoBlobValue [1, 0, 1, 2] twoBlobSidecars.reverse [] []

/-- No blobs, and the forged notice. -/
def forgedPackage : SyncedValuePackage :=
  .metadataOnly twoBlobValue [forgedNotice] (some [1, 0, 1, 2]) []

/-- The commitments and hashes a node has for height 1. -/
def hashesOne (s : Node) : Option (List KzgCommitment × List B256) :=
  (s.disk.store.blobMetadataDecided[1]?).map fun row => (row.blobKzgCommitments, row.blobKeccakHashes)

/-- A blob that is verified against the first commitment has the hash 1. -/
theorem not_hashSource (hc : c.blobKzgCommitments[0]? = some ⟨1⟩) (h0 : k ≠ 0) (h1 : k ≠ 1) :
    ¬ HashSource (strictConfig 1) c 0 k := by
  intro h
  cases h with
  | placeholder => exact h0 rfl
  | @blob b commitment proof hcommitment hverified =>
    obtain ⟨batch, hmem, hbatch⟩ := hverified
    have hentry : commitment = ⟨(b.data.headD 0).toBitVec.setWidth 384⟩ := by
      simpa using List.all_eq_true.1 hbatch _ hmem
    rw [hc, hentry] at hcommitment
    have hbits : 1 = (b.data.headD 0).toBitVec.setWidth 384 :=
      congrArg KzgCommitment.bytes (Option.some.inj hcommitment)
    refine h1 ?_
    calc (b.data.headD 0).toBitVec.setWidth 256
        = ((b.data.headD 0).toBitVec.setWidth 384).setWidth 256 :=
          (BitVec.setWidth_setWidth_of_le _ (by decide)).symm
      _ = 1 := by rw [← hbits]; decide +kernel
  | @notice n hindex hverified =>
    obtain ⟨v, _, hsigned⟩ := hverified.signed
    have hroot : n.body.signingRoot strict = bitVecBytes (9 : B256) := rfl
    have hmessage : (n.body.signingRoot strict != bitVecBytes (9 : B256)) = true :=
      (Bool.and_eq_true_iff.1 hsigned).2
    rw [hroot, bne_self_eq_false] at hmessage
    cases hmessage

end Sample

open Sample in
/-- **Hashes without a source.** A `Full` package with its sidecars in the order 1, 0 leaves the hash of
the second blob at index 0. A `MetadataOnly` package with a notice that nobody has signed leaves the
hash the notice names. -/
theorem stored_hashes_untraced :
    (Node.Reachable (strictConfig 1) (fun _ _ => True) (sentPackage swappedPackage) ∧
      hashesOne (sentPackage swappedPackage) = some ([⟨1⟩, ⟨2⟩], [2, 1]) ∧
      ¬ (sentPackage swappedPackage).disk.store.HashesTraced (strictConfig 1)) ∧
    Node.Reachable (strictConfig 1) (fun _ _ => True) (sentPackage forgedPackage) ∧
      hashesOne (sentPackage forgedPackage) = some ([⟨1⟩, ⟨2⟩], [5, 0]) ∧
      ¬ (sentPackage forgedPackage).disk.store.HashesTraced (strictConfig 1) := by
  have huntraced : ∀ {s : Node} {k k' : B256}, k ≠ 0 → k ≠ 1 →
      hashesOne s = some ([⟨1⟩, ⟨2⟩], [k, k']) → ¬ s.disk.store.HashesTraced (strictConfig 1) := by
    intro s k k' h0 h1 hrow htraced
    obtain ⟨row, hget, hfields⟩ := Option.map_eq_some_iff.1 hrow
    obtain ⟨hcommitments, hhashes⟩ := Prod.mk.inj hfields
    have hsource := (htraced.decided 1 row hget).2 0 k (by rw [hhashes]; rfl)
    exact not_hashSource (c := row.core) (congrArg (·[0]?) hcommitments) h0 h1 hsource
  have hswapped : Follows (Node.next (strictConfig 1)) (fun _ _ => True) [.start, .handle
      (.processSyncedValue 1 (.some 0) ⟨2⟩ swappedPackage)] (.down Disk.empty) ∧
      hashesOne (sentPackage swappedPackage) = some ([⟨1⟩, ⟨2⟩], [2, 1]) := by decide +kernel
  have hforged : Follows (Node.next (strictConfig 1)) (fun _ _ => True) [.start, .handle
      (.processSyncedValue 1 (.some 0) ⟨2⟩ forgedPackage)] (.down Disk.empty) ∧
      hashesOne (sentPackage forgedPackage) = some ([⟨1⟩, ⟨2⟩], [5, 0]) := by decide +kernel
  exact ⟨⟨Reach.refl.follow hswapped.1, hswapped.2, huntraced (by decide) (by decide) hswapped.2⟩,
    Reach.refl.follow hforged.1, hforged.2, huntraced (by decide) (by decide) hforged.2⟩

end Ultramarine
