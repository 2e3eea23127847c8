import Ultramarine.Ssz.TreeHash

/-!
# Values and metadata

`Value` is what consensus votes on: a header, the blob commitments, and their `u64` hash.
`BlobMetadata` is the per-height record of the blob layer; its beacon header chains the heights
together. `ConsensusBlockMetadata` is the record of the BFT layer.

`BlobMetadata` carries what `BlobMetadata::new` asserts and `from_proto` checks: one keccak hash
and one archive slot per commitment, and a count that fits `u16`. `BlobMetadata.new?` is `none`
where the constructor panics.
-/

namespace Ultramarine

open Lib Ssz

/-- `ValueMetadata` -/
structure ValueMetadata where
  executionPayloadHeader : ExecutionPayloadHeader
  blobKzgCommitments : List KzgCommitment
  blobCount : Nat
  totalBlobBytes : Nat
deriving DecidableEq, Repr

/-- `ValueMetadata::new`; `none` where the count does not fit `u16` and the constructor panics. -/
def ValueMetadata.new? (header : ExecutionPayloadHeader) (commitments : List KzgCommitment) :
    Option ValueMetadata :=
  if commitments.length ≤ u16Max then
    some ⟨header, commitments, commitments.length, commitments.length * bytesPerBlob % 2 ^ 32⟩
  else none

/-- `Hash` of a byte array or slice: its length as a `usize`, then its bytes. -/
def hashBytes (bytes : Bytes) : Bytes := leBytes 8 bytes.length ++ bytes

/-- The byte stream `ValueMetadata::consensus_hash` feeds to its hasher. -/
def ValueMetadata.consensusHashInput (m : ValueMetadata) : Bytes :=
  let h := m.executionPayloadHeader
  hashBytes (bitVecBytes h.blockHash) ++
  hashBytes (bitVecBytes h.parentHash) ++
  hashBytes (bitVecBytes h.stateRoot) ++
  hashBytes (bitVecBytes h.receiptsRoot) ++
  hashBytes (bitVecBytes h.logsBloom) ++
  leBytes 8 h.blockNumber ++
  leBytes 8 h.gasLimit ++
  leBytes 8 h.gasUsed ++
  leBytes 8 h.timestamp ++
  hashBytes (leBytes 32 h.baseFeePerGas.toNat) ++
  leBytes 8 h.blobGasUsed ++
  leBytes 8 h.excessBlobGas ++
  hashBytes (bitVecBytes h.prevRandao) ++
  hashBytes (bitVecBytes h.feeRecipient.bytes) ++
  (match h.requestsHash with
    | some r => hashBytes (bitVecBytes r)
    | none => []) ++
  (m.blobKzgCommitments.map fun c => hashBytes (bitVecBytes c.bytes)).flatten

/-- `ValueMetadata::consensus_hash` -/
def ValueMetadata.consensusHash (o : Oracles) (m : ValueMetadata) : Nat :=
  o.defaultHasher m.consensusHashInput

/-- `Value` -/
structure Value where
  value : Nat
  metadata : ValueMetadata
  extensions : Bytes
deriving DecidableEq, Repr

/-- `Value::new` -/
def Value.new (o : Oracles) (m : ValueMetadata) : Value := ⟨m.consensusHash o, m, []⟩

/-- `Value::id` -/
def Value.id (v : Value) : Nat := v.value

/-- `ConsensusBlockMetadata` -/
structure ConsensusBlockMetadata where
  height : Height
  round : Round
  proposer : Address
  timestamp : Nat
  validatorSetHash : B256
  executionBlockHash : B256
  gasLimit : Nat
  gasUsed : Nat
deriving DecidableEq, Repr

/-- `BlobMetadata` -/
structure BlobMetadata where
  height : Height
  parentBlobRoot : B256
  blobKzgCommitments : List KzgCommitment
  blobKeccakHashes : List B256
  archivalRecords : List (Option ArchiveRecord)
  pruned : Bool
  executionPayloadHeader : ExecutionPayloadHeader
  proposerIndexHint : Option Nat
  count_le : blobKzgCommitments.length ≤ u16Max
  keccak_length : blobKeccakHashes.length = blobKzgCommitments.length
  records_length : archivalRecords.length = blobKzgCommitments.length
  records_index : ∀ (i : Nat) (r : ArchiveRecord), archivalRecords[i]? = some (some r) →
    r.body.blobIndex = i
deriving DecidableEq

namespace BlobMetadata

/-- `BlobMetadata::blob_count` -/
def blobCount (m : BlobMetadata) : Nat := m.blobKzgCommitments.length

theorem noRecords_length (commitments : List KzgCommitment) :
    (List.replicate commitments.length (none : Option ArchiveRecord)).length =
      commitments.length := List.length_replicate

theorem noRecords_index (commitments : List KzgCommitment) (i : Nat) (r : ArchiveRecord)
    (h : (List.replicate commitments.length (none : Option ArchiveRecord))[i]? = some (some r)) :
    r.body.blobIndex = i := by
  rw [List.getElem?_replicate] at h
  split at h <;> cases h

/-- `BlobMetadata::new`; `none` where the constructor panics. -/
def new? (height : Height) (parentBlobRoot : B256) (commitments : List KzgCommitment)
    (keccaks : List B256) (header : ExecutionPayloadHeader) (hint : Option Nat) :
    Option BlobMetadata :=
  if h : commitments.length ≤ u16Max ∧ keccaks.length = commitments.length then
    some
      { height, parentBlobRoot
        blobKzgCommitments := commitments
        blobKeccakHashes := keccaks
        archivalRecords := List.replicate commitments.length none
        pruned := false
        executionPayloadHeader := header
        proposerIndexHint := hint
        count_le := h.1
        keccak_length := h.2
        records_length := noRecords_length commitments
        records_index := noRecords_index commitments }
  else none

/-- `BlobMetadata::blobless` -/
def blobless (height : Height) (parentBlobRoot : B256) (header : ExecutionPayloadHeader)
    (hint : Option Nat) : BlobMetadata where
  height := height
  parentBlobRoot := parentBlobRoot
  blobKzgCommitments := []
  blobKeccakHashes := []
  archivalRecords := []
  pruned := false
  executionPayloadHeader := header
  proposerIndexHint := hint
  count_le := Nat.zero_le _
  keccak_length := rfl
  records_length := rfl
  records_index := fun _ _ h => by cases h

/-- The placeholder execution header of `BlobMetadata::genesis`. -/
def genesisHeader : ExecutionPayloadHeader where
  blockHash := 0
  parentHash := 0
  stateRoot := 0
  receiptsRoot := 0
  logsBloom := 0
  blockNumber := 0
  gasLimit := loadExecutionGasLimit
  gasUsed := 0
  timestamp := 0
  baseFeePerGas := 0
  extraData := []
  transactionsRoot := 0
  withdrawalsRoot := 0
  blobGasUsed := 0
  excessBlobGas := 0
  prevRandao := 0
  feeRecipient := ⟨0⟩
  requestsHash := none

/-- `BlobMetadata::genesis` -/
def genesis : BlobMetadata := blobless 0 0 genesisHeader (some 0)

variable (o : Oracles)

/-- `BlobMetadata::compute_body_root` -/
def computeBodyRoot (m : BlobMetadata) : B256 :=
  Ssz.computeBodyRoot o (fromUltramarineData o m.blobKzgCommitments m.executionPayloadHeader)

/-- `BlobMetadata::to_beacon_header` -/
def toBeaconHeader (m : BlobMetadata) : BeaconBlockHeader where
  slot := m.height
  proposerIndex := m.proposerIndexHint.getD 0
  parentRoot := m.parentBlobRoot
  stateRoot := m.executionPayloadHeader.stateRoot
  bodyRoot := m.computeBodyRoot o

/-- `BlobMetadata::compute_blob_root`: the root the next height chains to. -/
def computeBlobRoot (m : BlobMetadata) : B256 := (m.toBeaconHeader o).hashTreeRoot o

/-- `BlobMetadata::archival_status`: the record of an index, if it is archived. -/
def archivalStatus (m : BlobMetadata) (index : Nat) : Option ArchiveRecord :=
  (m.archivalRecords[index]?).join

/-- `BlobMetadata::set_archive_record`; `none` where the index assertion panics. -/
def setArchiveRecord? (m : BlobMetadata) (record : ArchiveRecord) : Option BlobMetadata :=
  if record.body.blobIndex < m.archivalRecords.length then
    some { m with
      archivalRecords := m.archivalRecords.set record.body.blobIndex (some record)
      records_length := by rw [List.length_set]; exact m.records_length
      records_index := by
        intro i r h
        rw [List.getElem?_set] at h
        split at h
        · rename_i hi
          split at h
          · cases h
            exact hi
          · cases h
        · exact m.records_index i r h }
  else none

/-- `BlobMetadata::update_keccak_hash`: only a zero placeholder is replaced. -/
def updateKeccakHash (m : BlobMetadata) (index : Nat) (hash : B256) : BlobMetadata :=
  if m.blobKeccakHashes[index]? = some 0 then
    { m with
      blobKeccakHashes := m.blobKeccakHashes.set index hash
      keccak_length := by rw [List.length_set]; exact m.keccak_length }
  else m

/-- `BlobMetadata::mark_pruned` -/
def markPruned (m : BlobMetadata) : BlobMetadata := { m with pruned := true }

end BlobMetadata

/-! ## What enters the blob root

Archiving changes the keccak hashes, the records and the pruned flag of a row. None of them is part
of its beacon header: the header is a function of the `core`. -/

/-- The part of the metadata that is fixed when the block is proposed. -/
@[ext]
structure BlobCore where
  height : Height
  parentBlobRoot : B256
  blobKzgCommitments : List KzgCommitment
  executionPayloadHeader : ExecutionPayloadHeader
  proposerIndexHint : Option Nat
deriving DecidableEq

namespace BlobCore

/-- The beacon header of a core. -/
def toBeaconHeader (o : Oracles) (c : BlobCore) : BeaconBlockHeader where
  slot := c.height
  proposerIndex := c.proposerIndexHint.getD 0
  parentRoot := c.parentBlobRoot
  stateRoot := c.executionPayloadHeader.stateRoot
  bodyRoot := computeBodyRoot o (fromUltramarineData o c.blobKzgCommitments c.executionPayloadHeader)

/-- The root the next height chains to. -/
def root (o : Oracles) (c : BlobCore) : B256 := (c.toBeaconHeader o).hashTreeRoot o

end BlobCore

variable {m m' : BlobMetadata} {r : ArchiveRecord}

namespace BlobMetadata

/-- The core of a row. -/
def core (m : BlobMetadata) : BlobCore :=
  ⟨m.height, m.parentBlobRoot, m.blobKzgCommitments, m.executionPayloadHeader, m.proposerIndexHint⟩

theorem toBeaconHeader_eq (o : Oracles) (m : BlobMetadata) :
    m.toBeaconHeader o = m.core.toBeaconHeader o := rfl

theorem computeBlobRoot_eq (o : Oracles) (m : BlobMetadata) :
    m.computeBlobRoot o = m.core.root o := rfl

@[simp] theorem core_updateKeccakHash (m : BlobMetadata) (i : Nat) (hash : B256) :
    (m.updateKeccakHash i hash).core = m.core := by
  unfold updateKeccakHash
  split <;> rfl

theorem core_setArchiveRecord? (h : m.setArchiveRecord? r = some m') : m'.core = m.core := by
  unfold setArchiveRecord? at h
  split at h
  · cases h
    rfl
  · cases h

theorem keccaks_setArchiveRecord? (h : m.setArchiveRecord? r = some m') :
    m'.blobKeccakHashes = m.blobKeccakHashes := by
  unfold setArchiveRecord? at h
  split at h
  · cases h
    rfl
  · cases h

theorem pruned_setArchiveRecord? (h : m.setArchiveRecord? r = some m') : m'.pruned = m.pruned := by
  unfold setArchiveRecord? at h
  split at h
  · cases h
    rfl
  · cases h

/-- A hash that was not there is the one that replaced a placeholder. -/
theorem keccak_updateKeccakHash {i j : Nat} {hash k : B256}
    (h : (m.updateKeccakHash i hash).blobKeccakHashes[j]? = some k) :
    m.blobKeccakHashes[j]? = some k ∨ j = i ∧ k = hash := by
  unfold updateKeccakHash at h
  split at h
  · by_cases hij : i = j
    · subst hij
      rw [List.getElem?_set_self' ] at h
      obtain ⟨_, _, rfl⟩ := Option.map_eq_some_iff.1 h
      exact .inr ⟨rfl, rfl⟩
    · rw [List.getElem?_set_ne hij] at h
      exact .inl h
  · exact .inl h

theorem blobCount_of_core (h : m.core = m'.core) : m.blobCount = m'.blobCount :=
  congrArg (fun c : BlobCore => c.blobKzgCommitments.length) h

theorem archivalStatus_setArchiveRecord? (h : m.setArchiveRecord? r = some m') (i : Nat) :
    m'.archivalStatus i = if r.body.blobIndex = i then some r else m.archivalStatus i := by
  unfold setArchiveRecord? at h
  split at h
  · rename_i hlt
    cases h
    unfold archivalStatus
    rw [List.getElem?_set]
    by_cases hi : r.body.blobIndex = i
    · subst hi
      rw [if_pos rfl, if_pos hlt, if_pos rfl]
      rfl
    · rw [if_neg hi, if_neg hi]
  · cases h

@[simp] theorem archivalStatus_updateKeccakHash (m : BlobMetadata) (i j : Nat) (hash : B256) :
    (m.updateKeccakHash i hash).archivalStatus j = m.archivalStatus j := by
  unfold updateKeccakHash
  split <;> rfl

theorem core_new? {height : Height} {parentRoot : B256} {commitments : List KzgCommitment}
    {keccaks : List B256} {header : ExecutionPayloadHeader} {hint : Option Nat}
    (h : new? height parentRoot commitments keccaks header hint = some m) :
    m.core = ⟨height, parentRoot, commitments, header, hint⟩ := by
  unfold new? at h
  split at h
  · cases h
    rfl
  · cases h

end BlobMetadata

end Ultramarine
