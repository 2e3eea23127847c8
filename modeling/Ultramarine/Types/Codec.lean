import Mathlib.Data.List.ReduceOption
import Ultramarine.Lib.Prog
import Ultramarine.Types.Proposal

/-!
# What the databases keep

The Protobuf messages of the rows that outlive a block: decided values and their certificates,
consensus and blob metadata (`consensus/src/store.rs`), and blob sidecars (`blob_engine`). A message is
its fields; the wire format of the messages is Protobuf's. `to_proto` may refuse a row, `from_proto` may
refuse a message or, where it copies a slice into an array, panic.

`fromProto_toProto`: what is encoded decodes, to what it was. The hypotheses are the ranges of the Rust
types, where a model field is a `Nat`.
-/

namespace Ultramarine

open Lib Ssz

/-- `ProtoError` -/
inductive ProtoErr where
  | missingField (name : String)
  | length (name : String) (actual : Nat)
  | exceedsU16 (name : String) (n : Nat)
  | nilRound
  | roundRange (round : Int)
  | keccakCount (keccaks commitments : Nat)
  | blobCount (count commitments : Nat)
  | recordIndex (index blobs : Nat)
  | certType (tag : Int)
  | wire
deriving DecidableEq, Repr

/-! ## Byte arrays -/

/-- A fixed-size array from a slice of its length. -/
def ofSlice (w : Nat) (bytes : Bytes) : Option (BitVec w) :=
  if bytes.length = w / 8 then some (BitVec.ofNat w (ofBeBytes bytes)) else none

variable {name : String} {w : Nat} {α β : Type} {p : ProtoArchiveNoticeBody}

theorem ofSlice_bitVecBytes (hw : w = 8 * (w / 8)) (v : BitVec w) :
    ofSlice w (bitVecBytes v) = some v := by
  have hpow : 256 ^ (w / 8) = 2 ^ w := by
    rw [show 256 = 2 ^ 8 from rfl, ← Nat.pow_mul, ← hw]
  unfold ofSlice bitVecBytes
  rw [length_beBytes, if_pos rfl, ofBeBytes_beBytes, hpow, Nat.mod_eq_of_lt v.isLt,
    BitVec.ofNat_toNat, BitVec.setWidth_eq]

/-- `B256::from_slice`, which panics on another length. -/
def b256FromSlice (bytes : Bytes) : Exit ProtoErr B256 :=
  match ofSlice 256 bytes with
  | some v => .ok v
  | none => .panic

/-- A checked copy into a fixed-size array. -/
def arrayFromSlice (name : String) (w : Nat) (bytes : Bytes) : Exit ProtoErr (BitVec w) :=
  match ofSlice w bytes with
  | some v => .ok v
  | none => .error (.length name bytes.length)

@[simp] theorem b256FromSlice_bytes (v : B256) : b256FromSlice (bitVecBytes v) = .ok v := by
  unfold b256FromSlice
  rw [ofSlice_bitVecBytes rfl]

theorem arrayFromSlice_bytes (hw : w = 8 * (w / 8)) (v : BitVec w) :
    arrayFromSlice name w (bitVecBytes v) = .ok v := by
  unfold arrayFromSlice
  rw [ofSlice_bitVecBytes hw]

/-- `KzgCommitment::from_slice` -/
def KzgCommitment.fromSlice (bytes : Bytes) : Exit ProtoErr KzgCommitment :=
  arrayFromSlice "commitment" 384 bytes >>= fun v => pure ⟨v⟩

/-- `KzgProof::from_slice` -/
def KzgProof.fromSlice (bytes : Bytes) : Exit ProtoErr KzgProof :=
  arrayFromSlice "proof" 384 bytes >>= fun v => pure ⟨v⟩

/-- `decode_signature` -/
def Signature.fromProto (bytes : Bytes) : Exit ProtoErr Signature :=
  arrayFromSlice "signature" 512 bytes >>= fun v => pure ⟨v⟩

/-- `Address::from_proto` -/
def Address.fromProto (bytes : Bytes) : Exit ProtoErr Address :=
  arrayFromSlice "address" 160 bytes >>= fun v => pure ⟨v⟩

/-- `Blob::new` -/
def Blob.fromBytes (bytes : Bytes) : Exit ProtoErr Blob :=
  if h : bytes.length = bytesPerBlob then .ok ⟨bytes, h⟩ else .error (.length "blob" bytes.length)

section Arrays

@[simp] theorem KzgCommitment.fromSlice_bytes (c : KzgCommitment) :
    fromSlice (bitVecBytes c.bytes) = .ok c := by
  unfold fromSlice
  rw [arrayFromSlice_bytes rfl]
  rfl

@[simp] theorem KzgProof.fromSlice_bytes (p : KzgProof) :
    fromSlice (bitVecBytes p.bytes) = .ok p := by
  unfold fromSlice
  rw [arrayFromSlice_bytes rfl]
  rfl

@[simp] theorem Signature.fromProto_bytes (s : Signature) :
    fromProto (bitVecBytes s.bytes) = .ok s := by
  unfold fromProto
  rw [arrayFromSlice_bytes rfl]
  rfl

@[simp] theorem Address.fromProto_bytes (a : Address) :
    fromProto (bitVecBytes a.bytes) = .ok a := by
  unfold fromProto
  rw [arrayFromSlice_bytes rfl]
  rfl

@[simp] theorem Blob.fromBytes_data (b : Blob) : fromBytes b.data = .ok b := by
  unfold fromBytes
  rw [dif_pos b.size_eq]

end Arrays

/-- `u16::try_from` -/
def u16TryFrom (name : String) (n : Nat) : Exit ProtoErr Nat :=
  if n ≤ u16Max then .ok n else .error (.exceedsU16 name n)

/-- A field that must be there. -/
def required {α : Type} (name : String) : Option α → Exit ProtoErr α
  | some a => .ok a
  | none => .error (.missingField name)

/-- Decode a list, element by element. -/
def decodeAll {α β : Type} (f : α → Exit ProtoErr β) : List α → Exit ProtoErr (List β)
  | [] => .ok []
  | a :: as => do
    let b ← f a
    let bs ← decodeAll f as
    pure (b :: bs)

theorem decodeAll_map_eq {γ : Type} {f : α → Exit ProtoErr β} {g : γ → α} {h : γ → β} :
    ∀ {l : List γ}, (∀ c ∈ l, f (g c) = .ok (h c)) → decodeAll f (l.map g) = .ok (l.map h)
  | [], _ => rfl
  | c :: l, hl => by
    have htail : decodeAll f (l.map g) = .ok (l.map h) :=
      decodeAll_map_eq fun c' hc' => hl c' (by simp [hc'])
    rw [List.map_cons, decodeAll, hl c (by simp), htail]
    rfl

theorem decodeAll_map {f : α → Exit ProtoErr β} {g : β → α} {l : List β}
    (h : ∀ b ∈ l, f (g b) = .ok b) : decodeAll f (l.map g) = .ok l := by
  rw [decodeAll_map_eq (h := id) h, List.map_id]

/-- A list survives exactly when its elements do. -/
theorem decodeAll_map_iff {f : α → Exit ProtoErr β} {g : β → α} :
    ∀ {l : List β}, decodeAll f (l.map g) = .ok l ↔ ∀ b ∈ l, f (g b) = .ok b
  | [] => by simp [decodeAll]
  | b :: l => by
    simp only [List.map_cons, decodeAll, Exit.bind_eq_ok, Exit.pure_eq_ok, Exit.ok.injEq,
      List.cons.injEq, List.mem_cons, forall_eq_or_imp]
    constructor
    · rintro ⟨_, hb, _, hl, rfl, rfl⟩
      exact ⟨hb, decodeAll_map_iff.1 hl⟩
    · rintro ⟨hb, hl⟩
      exact ⟨b, hb, l, decodeAll_map_iff.2 hl, rfl, rfl⟩

/-! ## Blob sidecars -/

/-- `proto::BeaconBlockHeader` -/
structure ProtoBeaconBlockHeader where
  slot : Nat
  proposerIndex : Nat
  parentRoot : Bytes
  stateRoot : Bytes
  bodyRoot : Bytes
deriving DecidableEq

/-- `proto::SignedBeaconBlockHeader` -/
structure ProtoSignedHeader where
  message : Option ProtoBeaconBlockHeader
  signature : Option Bytes
deriving DecidableEq

/-- `proto::BlobSidecar` -/
structure ProtoBlobSidecar where
  index : Nat
  blob : Bytes
  kzgCommitment : Bytes
  kzgProof : Bytes
  signedBlockHeader : Option ProtoSignedHeader
  kzgCommitmentInclusionProof : List Bytes
deriving DecidableEq

namespace BlobSidecar

/-- `BlobSidecar::to_proto` -/
def toProto (s : BlobSidecar) : ProtoBlobSidecar where
  index := s.index
  blob := s.blob.data
  kzgCommitment := bitVecBytes s.kzgCommitment.bytes
  kzgProof := bitVecBytes s.kzgProof.bytes
  signedBlockHeader := some
    { message := some
        { slot := s.signedBlockHeader.message.slot
          proposerIndex := s.signedBlockHeader.message.proposerIndex
          parentRoot := bitVecBytes s.signedBlockHeader.message.parentRoot
          stateRoot := bitVecBytes s.signedBlockHeader.message.stateRoot
          bodyRoot := bitVecBytes s.signedBlockHeader.message.bodyRoot }
      signature := some (bitVecBytes s.signedBlockHeader.signature.bytes) }
  kzgCommitmentInclusionProof := s.kzgCommitmentInclusionProof.map bitVecBytes

/-- The signed header of a sidecar message. -/
def headerFromProto (p : ProtoSignedHeader) : Exit ProtoErr SignedBeaconBlockHeader := do
  let message ← required "message" p.message
  let parentRoot ← b256FromSlice message.parentRoot
  let stateRoot ← b256FromSlice message.stateRoot
  let bodyRoot ← b256FromSlice message.bodyRoot
  let signature ← required "signature" p.signature
  let signature ← Signature.fromProto signature
  pure ⟨⟨message.slot, message.proposerIndex, parentRoot, stateRoot, bodyRoot⟩, signature⟩

/-- `BlobSidecar::from_proto` -/
def fromProto (p : ProtoBlobSidecar) : Exit ProtoErr BlobSidecar := do
  let blob ← Blob.fromBytes p.blob
  let kzgCommitment ← KzgCommitment.fromSlice p.kzgCommitment
  let kzgProof ← KzgProof.fromSlice p.kzgProof
  let header ← required "signed_block_header" p.signedBlockHeader
  let signedBlockHeader ← headerFromProto header
  let proof ← decodeAll b256FromSlice p.kzgCommitmentInclusionProof
  let index ← u16TryFrom "index" p.index
  pure ⟨index, blob, kzgCommitment, kzgProof, signedBlockHeader, proof⟩

/-- **A stored sidecar reads back as it was.** -/
theorem fromProto_toProto {s : BlobSidecar} (h : s.index ≤ u16Max) : fromProto s.toProto = .ok s := by
  have hindex : u16TryFrom "index" s.index = .ok s.index := if_pos h
  have hproof : decodeAll b256FromSlice (s.kzgCommitmentInclusionProof.map bitVecBytes) =
      .ok s.kzgCommitmentInclusionProof := decodeAll_map fun v _ => b256FromSlice_bytes v
  unfold fromProto toProto headerFromProto
  simp [hindex, hproof, required]

end BlobSidecar

/-! ## Execution headers and values -/

/-- A checked copy into an array; an absent field is zero. -/
def arrayOrZero (name : String) (w : Nat) (bytes : Bytes) : Exit ProtoErr (BitVec w) :=
  if bytes = [] then .ok 0 else arrayFromSlice name w bytes

theorem arrayOrZero_bytes (hw : w = 8 * (w / 8)) (hpos : 0 < w / 8) (v : BitVec w) :
    arrayOrZero name w (bitVecBytes v) = .ok v := by
  have hne : bitVecBytes v ≠ [] := by
    unfold bitVecBytes
    rw [← List.length_pos_iff, length_beBytes]
    exact hpos
  unfold arrayOrZero
  rw [if_neg hne, arrayFromSlice_bytes hw]

/-- `bytes_to_u256`: little-endian, at most 32 bytes. -/
def u256FromBytes (bytes : Bytes) : Exit ProtoErr U256 :=
  if bytes.length ≤ 32 then .ok (BitVec.ofNat 256 (ofLeBytes bytes))
  else .error (.length "u256" bytes.length)

@[simp] theorem u256FromBytes_leBytes (v : U256) : u256FromBytes (leBytes 32 v.toNat) = .ok v := by
  have hlt : v.toNat < 256 ^ 32 := lt_of_lt_of_eq v.isLt (by decide)
  unfold u256FromBytes
  rw [length_leBytes, if_pos (Nat.le_refl _), ofLeBytes_leBytes, Nat.mod_eq_of_lt hlt,
    BitVec.ofNat_toNat, BitVec.setWidth_eq]

/-- `proto::ExecutionPayloadHeader` -/
structure ProtoExecutionPayloadHeader where
  blockHash : Bytes
  parentHash : Bytes
  stateRoot : Bytes
  receiptsRoot : Bytes
  logsBloom : Bytes
  blockNumber : Nat
  gasLimit : Nat
  gasUsed : Nat
  timestamp : Nat
  baseFeePerGas : Bytes
  extraData : Bytes
  transactionsRoot : Bytes
  withdrawalsRoot : Bytes
  blobGasUsed : Nat
  excessBlobGas : Nat
  prevRandao : Bytes
  feeRecipient : Bytes
  requestsHash : Bytes
deriving DecidableEq

namespace ExecutionPayloadHeader

/-- `ExecutionPayloadHeader::to_proto` -/
def toProto (h : ExecutionPayloadHeader) : ProtoExecutionPayloadHeader where
  blockHash := bitVecBytes h.blockHash
  parentHash := bitVecBytes h.parentHash
  stateRoot := bitVecBytes h.stateRoot
  receiptsRoot := bitVecBytes h.receiptsRoot
  logsBloom := bitVecBytes h.logsBloom
  blockNumber := h.blockNumber
  gasLimit := h.gasLimit
  gasUsed := h.gasUsed
  timestamp := h.timestamp
  baseFeePerGas := leBytes 32 h.baseFeePerGas.toNat
  extraData := h.extraData
  transactionsRoot := bitVecBytes h.transactionsRoot
  withdrawalsRoot := bitVecBytes h.withdrawalsRoot
  blobGasUsed := h.blobGasUsed
  excessBlobGas := h.excessBlobGas
  prevRandao := bitVecBytes h.prevRandao
  feeRecipient := bitVecBytes h.feeRecipient.bytes
  requestsHash := h.requestsHash.elim [] bitVecBytes

/-- The requests hash of a header message: empty for none. -/
def requestsHashFromProto (bytes : Bytes) : Exit ProtoErr (Option B256) :=
  if bytes = [] then .ok none else arrayOrZero "b256" 256 bytes >>= fun v => pure (some v)

/-- `ExecutionPayloadHeader::from_proto` -/
def fromProto (p : ProtoExecutionPayloadHeader) : Exit ProtoErr ExecutionPayloadHeader := do
  let blockHash ← arrayOrZero "b256" 256 p.blockHash
  let parentHash ← arrayOrZero "b256" 256 p.parentHash
  let stateRoot ← arrayOrZero "b256" 256 p.stateRoot
  let receiptsRoot ← arrayOrZero "b256" 256 p.receiptsRoot
  let logsBloom ← arrayOrZero "bloom" 2048 p.logsBloom
  let baseFeePerGas ← u256FromBytes p.baseFeePerGas
  let transactionsRoot ← arrayOrZero "b256" 256 p.transactionsRoot
  let withdrawalsRoot ← arrayOrZero "b256" 256 p.withdrawalsRoot
  let prevRandao ← arrayOrZero "b256" 256 p.prevRandao
  let feeRecipient ← Address.fromProto p.feeRecipient
  let requestsHash ← requestsHashFromProto p.requestsHash
  pure
    { blockHash, parentHash, stateRoot, receiptsRoot, logsBloom
      blockNumber := p.blockNumber
      gasLimit := p.gasLimit
      gasUsed := p.gasUsed
      timestamp := p.timestamp
      baseFeePerGas
      extraData := p.extraData
      transactionsRoot, withdrawalsRoot
      blobGasUsed := p.blobGasUsed
      excessBlobGas := p.excessBlobGas
      prevRandao, feeRecipient, requestsHash }

theorem requestsHashFromProto_toProto (r : Option B256) :
    requestsHashFromProto (r.elim [] bitVecBytes) = .ok r := by
  cases r with
  | none => rfl
  | some v =>
    have hne : bitVecBytes v ≠ [] := by
      unfold bitVecBytes
      rw [← List.length_pos_iff, length_beBytes]
      decide
    unfold requestsHashFromProto
    rw [Option.elim_some, if_neg hne, arrayOrZero_bytes rfl (by decide)]
    rfl

@[simp] theorem fromProto_toProto (h : ExecutionPayloadHeader) : fromProto h.toProto = .ok h := by
  have hb256 : ∀ v : B256, arrayOrZero "b256" 256 (bitVecBytes v) = .ok v :=
    arrayOrZero_bytes rfl (by decide)
  have hbloom : arrayOrZero "bloom" 2048 (bitVecBytes h.logsBloom) = .ok h.logsBloom :=
    arrayOrZero_bytes rfl (by decide) h.logsBloom
  unfold fromProto toProto
  simp only [hb256, hbloom, u256FromBytes_leBytes, Address.fromProto_bytes,
    requestsHashFromProto_toProto, Exit.ok_bind]
  rfl

end ExecutionPayloadHeader

/-- `proto::ValueMetadata` -/
structure ProtoValueMetadata where
  executionPayloadHeader : Option ProtoExecutionPayloadHeader
  blobKzgCommitments : List Bytes
  blobCount : Nat
  totalBlobBytes : Nat
deriving DecidableEq

/-- `ValueMetadata::to_proto` -/
def ValueMetadata.toProto (m : ValueMetadata) : ProtoValueMetadata where
  executionPayloadHeader := some m.executionPayloadHeader.toProto
  blobKzgCommitments := m.blobKzgCommitments.map fun c => bitVecBytes c.bytes
  blobCount := m.blobCount
  totalBlobBytes := m.totalBlobBytes

/-- `ValueMetadata::from_proto` -/
def ValueMetadata.fromProto (p : ProtoValueMetadata) : Exit ProtoErr ValueMetadata := do
  let header ← required "execution_payload_header" p.executionPayloadHeader
  let header ← ExecutionPayloadHeader.fromProto header
  let commitments ← decodeAll KzgCommitment.fromSlice p.blobKzgCommitments
  let blobCount ← u16TryFrom "blob_count" p.blobCount
  pure ⟨header, commitments, blobCount, p.totalBlobBytes⟩

theorem ValueMetadata.fromProto_toProto {m : ValueMetadata} (h : m.blobCount ≤ u16Max) :
    fromProto m.toProto = .ok m := by
  have hcount : u16TryFrom "blob_count" m.blobCount = .ok m.blobCount := if_pos h
  have hcommitments : decodeAll KzgCommitment.fromSlice
      (m.blobKzgCommitments.map fun c => bitVecBytes c.bytes) = .ok m.blobKzgCommitments :=
    decodeAll_map fun c _ => c.fromSlice_bytes
  unfold fromProto toProto
  simp only [required, hcount, hcommitments, ExecutionPayloadHeader.fromProto_toProto, Exit.ok_bind]
  rfl

/-- `proto::Value` -/
structure ProtoValue where
  value : Nat
  metadata : Option ProtoValueMetadata
  extensions : Bytes
deriving DecidableEq

/-- `Value::to_proto` -/
def Value.toProto (v : Value) : ProtoValue := ⟨v.value, some v.metadata.toProto, v.extensions⟩

/-- The metadata of a value message that has none. -/
def ValueMetadata.absent : ValueMetadata :=
  ⟨{ BlobMetadata.genesisHeader with gasLimit := 0 }, [], 0, 0⟩

/-- `Value::from_proto` -/
def Value.fromProto (p : ProtoValue) : Exit ProtoErr Value :=
  match p.metadata with
  | some m => ValueMetadata.fromProto m >>= fun metadata => pure ⟨p.value, metadata, p.extensions⟩
  | none => .ok ⟨p.value, .absent, p.extensions⟩

theorem Value.fromProto_toProto {v : Value} (h : v.metadata.blobCount ≤ u16Max) :
    fromProto v.toProto = .ok v := by
  unfold fromProto toProto
  dsimp only
  rw [ValueMetadata.fromProto_toProto h]
  rfl

/-! ## Certificates and consensus metadata -/

/-- `proto::CommitCertificate` -/
structure ProtoCommitCertificate where
  height : Height
  round : Nat
  valueId : Option Nat
  signatures : List (Option Bytes × Option Bytes)
deriving DecidableEq

namespace CommitCertificate

/-- `encode_certificate`: a nil round is refused. -/
def toProto (c : CommitCertificate) : Exit ProtoErr ProtoCommitCertificate :=
  match c.round with
  | .nil => .error .nilRound
  | .some r => .ok ⟨c.height, r, some c.valueId, c.commitSignatures.map fun s =>
      (some (bitVecBytes s.1.bytes), some (bitVecBytes s.2.bytes))⟩

/-- `decode_commit_signature` -/
def signatureFromProto (p : Option Bytes × Option Bytes) : Exit ProtoErr (Address × Signature) := do
  let signature ← required "signature" p.2
  let signature ← Signature.fromProto signature
  let address ← required "validator_address" p.1
  let address ← Address.fromProto address
  pure (address, signature)

/-- `decode_certificate` -/
def fromProto (p : ProtoCommitCertificate) : Exit ProtoErr CommitCertificate := do
  let valueId ← required "value_id" p.valueId
  let signatures ← decodeAll signatureFromProto p.signatures
  pure ⟨p.height, .some p.round, valueId, signatures⟩

/-- A certificate that can be stored reads back as it was. -/
theorem fromProto_toProto {c : CommitCertificate} (h : c.round ≠ .nil) :
    ∃ p, c.toProto = .ok p ∧ fromProto p = .ok c := by
  obtain ⟨height, round, valueId, signatures⟩ := c
  cases round with
  | nil => exact absurd rfl h
  | some r =>
    have hsignatures : decodeAll signatureFromProto (signatures.map fun s =>
        (some (bitVecBytes s.1.bytes), some (bitVecBytes s.2.bytes))) = .ok signatures := by
      refine decodeAll_map fun s _ => ?_
      simp [signatureFromProto, required]
    refine ⟨_, rfl, ?_⟩
    unfold fromProto
    simp only [required, hsignatures, Exit.ok_bind]
    rfl

end CommitCertificate

/-- `proto::ConsensusBlockMetadata` -/
structure ProtoConsensusBlockMetadata where
  height : Height
  round : Int
  proposer : Option Bytes
  timestamp : Nat
  validatorSetHash : Bytes
  executionBlockHash : Bytes
  gasLimit : Nat
  gasUsed : Nat
deriving DecidableEq

namespace ConsensusBlockMetadata

/-- `ConsensusBlockMetadata::to_proto`: the round is an `i32`. -/
def toProto (m : ConsensusBlockMetadata) : Exit ProtoErr ProtoConsensusBlockMetadata :=
  if m.round.asI64 ≤ i32Max then
    .ok
      { height := m.height
        round := m.round.asI64
        proposer := some (bitVecBytes m.proposer.bytes)
        timestamp := m.timestamp
        validatorSetHash := bitVecBytes m.validatorSetHash
        executionBlockHash := bitVecBytes m.executionBlockHash
        gasLimit := m.gasLimit
        gasUsed := m.gasUsed }
  else .error (.roundRange m.round.asI64)

/-- `ConsensusBlockMetadata::from_proto`: a negative round is refused. -/
def fromProto (p : ProtoConsensusBlockMetadata) : Exit ProtoErr ConsensusBlockMetadata := do
  Exit.ensure (0 ≤ p.round) (.roundRange p.round)
  let proposer ← required "proposer" p.proposer
  let proposer ← Address.fromProto proposer
  let validatorSetHash ← b256FromSlice p.validatorSetHash
  let executionBlockHash ← b256FromSlice p.executionBlockHash
  pure
    { height := p.height
      round := .some p.round.toNat
      proposer
      timestamp := p.timestamp
      validatorSetHash, executionBlockHash
      gasLimit := p.gasLimit
      gasUsed := p.gasUsed }

/-- Consensus metadata of a round within `i32` reads back as it was; that of a nil round would be
written and never read. -/
theorem fromProto_toProto {m : ConsensusBlockMetadata} (hnil : m.round ≠ .nil)
    (hle : m.round.asI64 ≤ i32Max) : ∃ p, m.toProto = .ok p ∧ fromProto p = .ok m := by
  obtain ⟨height, round, proposer, timestamp, setHash, blockHash, gasLimit, gasUsed⟩ := m
  cases round with
  | nil => exact absurd rfl hnil
  | some r =>
    unfold toProto
    rw [if_pos hle]
    refine ⟨_, rfl, ?_⟩
    have hround : Exit.ensure (0 ≤ (Round.some r).asI64)
        (ProtoErr.roundRange (Round.some r).asI64) = .ok () :=
      Exit.ensure_eq_ok.2 (Int.natCast_nonneg r)
    unfold fromProto
    simp only [hround, required, Address.fromProto_bytes, b256FromSlice_bytes, Exit.ok_bind]
    rfl

end ConsensusBlockMetadata

/-! ## Archive notices and records -/

/-- `proto::ArchiveNoticeBody` off the wire: an array is a byte string of any length. -/
structure WireNoticeBody where
  height : Height
  round : Int
  blobIndex : Nat
  kzgCommitment : Bytes
  blobKeccak : Bytes
  providerId : String
  locator : String
  archivedBy : Option Bytes
  archivedAt : Nat
deriving DecidableEq

/-- The message of a body, its arrays as bytes. -/
def ProtoArchiveNoticeBody.toWire (p : ProtoArchiveNoticeBody) : WireNoticeBody where
  height := p.height
  round := p.round
  blobIndex := p.blobIndex
  kzgCommitment := bitVecBytes p.kzgCommitment.bytes
  blobKeccak := bitVecBytes p.blobKeccak
  providerId := p.providerId
  locator := p.locator
  archivedBy := some (bitVecBytes p.archivedBy.bytes)
  archivedAt := p.archivedAt

/-- `ArchiveNoticeBody::from_proto`, with the checks it makes on the way. -/
def ArchiveNoticeBody.fromWire (p : WireNoticeBody) : Exit ProtoErr ArchiveNoticeBody := do
  let blobIndex ← u16TryFrom "blob_index" p.blobIndex
  let kzgCommitment ← KzgCommitment.fromSlice p.kzgCommitment
  let blobKeccak ← b256FromSlice p.blobKeccak
  let archivedBy ← required "archived_by" p.archivedBy
  let archivedBy ← Address.fromProto archivedBy
  pure (.fromProto
    { height := p.height
      round := p.round
      blobIndex, kzgCommitment, blobKeccak
      providerId := p.providerId
      locator := p.locator
      archivedBy
      archivedAt := p.archivedAt })

theorem ArchiveNoticeBody.fromWire_toWire (h : p.blobIndex ≤ u16Max) :
    fromWire p.toWire = .ok (.fromProto p) := by
  have hindex : u16TryFrom "blob_index" p.blobIndex = .ok p.blobIndex := if_pos h
  unfold fromWire ProtoArchiveNoticeBody.toWire
  simp only [hindex, KzgCommitment.fromSlice_bytes, b256FromSlice_bytes, required,
    Address.fromProto_bytes, Exit.ok_bind]
  rfl

/-- A signed body of a notice or a record; `name` is the field of the signature. -/
def signedBodyFromProto (name : String) (body : Option WireNoticeBody) (signature : Option Bytes) :
    Exit ProtoErr (ArchiveNoticeBody × Signature) := do
  let body ← required "body" body
  let body ← ArchiveNoticeBody.fromWire body
  let signature ← required name signature
  let signature ← Signature.fromProto signature
  pure (body, signature)

theorem signedBodyFromProto_toWire {s : Signature} (h : p.blobIndex ≤ u16Max) :
    signedBodyFromProto name (some p.toWire) (some (bitVecBytes s.bytes)) =
      .ok (.fromProto p, s) := by
  unfold signedBodyFromProto
  simp only [required, ArchiveNoticeBody.fromWire_toWire h, Signature.fromProto_bytes, Exit.ok_bind]
  rfl

/-- `proto::ArchiveRecord` -/
structure ProtoArchiveRecord where
  body : Option WireNoticeBody
  archiveSignature : Option Bytes
deriving DecidableEq

/-- `ArchiveRecord::to_proto` -/
def ArchiveRecord.toProto (r : ArchiveRecord) : ProtoArchiveRecord :=
  ⟨some r.body.toProto.toWire, some (bitVecBytes r.signature.bytes)⟩

/-- `ArchiveRecord::from_proto` -/
def ArchiveRecord.fromProto (p : ProtoArchiveRecord) : Exit ProtoErr ArchiveRecord :=
  signedBodyFromProto "archive_signature" p.body p.archiveSignature >>= fun r => pure ⟨r.1, r.2⟩

/-- What a record becomes on disk and back: its round goes through `i32`. -/
def ArchiveRecord.transmit (r : ArchiveRecord) : ArchiveRecord :=
  { r with body := .fromProto r.body.toProto }

theorem ArchiveRecord.fromProto_toProto {r : ArchiveRecord} (h : r.body.blobIndex ≤ u16Max) :
    fromProto r.toProto = .ok r.transmit := by
  unfold fromProto toProto
  have hindex : r.body.toProto.blobIndex ≤ u16Max := h
  simp only [signedBodyFromProto_toWire hindex, Exit.ok_bind]
  rfl

/-! ## Blob metadata -/

/-- `proto::BlobMetadata` -/
structure ProtoBlobMetadata where
  height : Height
  parentBlobRoot : Bytes
  kzgCommitments : List Bytes
  blobKeccak : List Bytes
  blobCount : Nat
  executionPayloadHeader : Option ProtoExecutionPayloadHeader
  proposerIndexHint : Option Nat
  archivalRecords : List ProtoArchiveRecord
  pruned : Bool
deriving DecidableEq

namespace BlobMetadata

/-- `BlobMetadata::to_proto` -/
def toProto (m : BlobMetadata) : ProtoBlobMetadata where
  height := m.height
  parentBlobRoot := bitVecBytes m.parentBlobRoot
  kzgCommitments := m.blobKzgCommitments.map fun c => bitVecBytes c.bytes
  blobKeccak := m.blobKeccakHashes.map bitVecBytes
  blobCount := m.blobKzgCommitments.length
  executionPayloadHeader := some m.executionPayloadHeader.toProto
  proposerIndexHint := m.proposerIndexHint
  archivalRecords := m.archivalRecords.reduceOption.map ArchiveRecord.toProto
  pruned := m.pruned

/-- The records of a metadata message, each put where its index says. -/
def setRecords (m : BlobMetadata) : List ProtoArchiveRecord → Exit ProtoErr BlobMetadata
  | [] => .ok m
  | p :: rest => do
    let record ← ArchiveRecord.fromProto p
    match m.setArchiveRecord? record with
    | some m => setRecords m rest
    | none => .error (.recordIndex record.body.blobIndex m.archivalRecords.length)

/-- `BlobMetadata::from_proto` -/
def fromProto (p : ProtoBlobMetadata) : Exit ProtoErr BlobMetadata := do
  let commitments ← decodeAll KzgCommitment.fromSlice p.kzgCommitments
  let keccaks ← decodeAll b256FromSlice p.blobKeccak
  if hkeccaks : keccaks.length = commitments.length then
    let blobCount ← u16TryFrom "blob_count" p.blobCount
    if hcount : blobCount = commitments.length ∧ commitments.length ≤ u16Max then
      -- the records are read before the header and the root, which are placeholders until then
      let row ← setRecords
        { height := p.height
          parentBlobRoot := 0
          blobKzgCommitments := commitments
          blobKeccakHashes := keccaks
          archivalRecords := List.replicate commitments.length none
          pruned := p.pruned
          executionPayloadHeader := genesisHeader
          proposerIndexHint := p.proposerIndexHint
          count_le := hcount.2
          keccak_length := hkeccaks
          records_length := noRecords_length commitments
          records_index := noRecords_index commitments } p.archivalRecords
      let header ← required "execution_payload_header" p.executionPayloadHeader
      let header ← ExecutionPayloadHeader.fromProto header
      let parentBlobRoot ← b256FromSlice p.parentBlobRoot
      pure { row with executionPayloadHeader := header, parentBlobRoot }
    else .error (.blobCount blobCount commitments.length)
  else .error (.keccakCount keccaks.length commitments.length)

/-- Every record of the row is about a blob of the row. -/
theorem placed (m : BlobMetadata) (r : ArchiveRecord) (h : some r ∈ m.archivalRecords) :
    r.body.blobIndex < m.blobKzgCommitments.length := by
  obtain ⟨i, hi⟩ := List.mem_iff_getElem?.1 h
  rw [m.records_index i r hi, ← m.records_length]
  exact (List.getElem?_eq_some_iff.1 hi).1

/-- The records of a row can be set on any row with as many blobs. The last record of an index is the
one that stays. -/
theorem setRecords_ok {records : List ArchiveRecord} :
    ∀ {m : BlobMetadata}, (∀ r ∈ records, r.body.blobIndex < m.blobKzgCommitments.length) →
      ∃ m', setRecords m (records.map ArchiveRecord.toProto) = .ok m' ∧ m'.core = m.core ∧
        m'.blobKeccakHashes = m.blobKeccakHashes ∧ m'.pruned = m.pruned ∧
        ∀ i, m'.archivalStatus i = ((records.reverse.find? (·.body.blobIndex = i)).map
          ArchiveRecord.transmit <|> m.archivalStatus i) := by
  induction records with
  | nil =>
    intro m _
    exact ⟨m, rfl, rfl, rfl, rfl, fun i => rfl⟩
  | cons r records ih =>
    intro m h
    have hlt : r.body.blobIndex < m.blobKzgCommitments.length := h r (by simp)
    have hrecord : ArchiveRecord.fromProto r.toProto = .ok r.transmit :=
      ArchiveRecord.fromProto_toProto (le_of_lt (lt_of_lt_of_le hlt m.count_le))
    have hindex : r.transmit.body.blobIndex = r.body.blobIndex := rfl
    obtain ⟨m₁, hm₁⟩ : ∃ m₁, m.setArchiveRecord? r.transmit = some m₁ := by
      unfold setArchiveRecord?
      rw [m.records_length]
      exact ⟨_, if_pos hlt⟩
    have hcore := core_setArchiveRecord? hm₁
    have hcommitments : m₁.blobKzgCommitments = m.blobKzgCommitments :=
      congrArg BlobCore.blobKzgCommitments hcore
    obtain ⟨m', hm', hcore', hkeccaks, hpruned, hstatus⟩ := @ih m₁ fun r' hr' => by
      rw [hcommitments]
      exact h r' (by simp [hr'])
    refine ⟨m', ?_, hcore'.trans hcore, hkeccaks.trans (keccaks_setArchiveRecord? hm₁),
      hpruned.trans (pruned_setArchiveRecord? hm₁), fun i => ?_⟩
    · rw [List.map_cons, setRecords, hrecord, Exit.ok_bind, hm₁]
      exact hm'
    · rw [hstatus i, archivalStatus_setArchiveRecord? hm₁, hindex, List.reverse_cons,
        List.find?_append]
      by_cases hi : r.body.blobIndex = i
      · cases hfind : records.reverse.find? (·.body.blobIndex = i) <;> simp [hi]
      · simp [hi]

/-- The record a row has of an index is the one its list of records is searched for. -/
theorem find?_reduceOption (m : BlobMetadata) (i : Nat) :
    m.archivalRecords.reduceOption.reverse.find? (·.body.blobIndex = i) = m.archivalStatus i := by
  cases hstatus : m.archivalStatus i with
  | none =>
    rw [List.find?_eq_none]
    intro r hr hi
    rw [List.mem_reverse, List.reduceOption_mem_iff] at hr
    obtain ⟨j, hj⟩ := List.mem_iff_getElem?.1 hr
    have hji : j = i := (m.records_index j r hj).symm.trans (by simpa using hi)
    subst hji
    simp [archivalStatus, hj] at hstatus
  | some r =>
    have hr : m.archivalRecords[i]? = some (some r) := by
      unfold archivalStatus at hstatus
      exact Option.join_eq_some_iff.1 hstatus
    have hmem : r ∈ m.archivalRecords.reduceOption.reverse := by
      rw [List.mem_reverse, List.reduceOption_mem_iff]
      exact List.mem_of_getElem? hr
    cases hfind : m.archivalRecords.reduceOption.reverse.find? (·.body.blobIndex = i) with
    | none =>
      have hno := List.find?_eq_none.1 hfind r hmem
      simp [m.records_index i r hr] at hno
    | some r' =>
      have hmem' : some r' ∈ m.archivalRecords := by
        rw [← List.reduceOption_mem_iff, ← List.mem_reverse]
        exact List.mem_of_find?_eq_some hfind
      obtain ⟨j, hj⟩ := List.mem_iff_getElem?.1 hmem'
      have hindex : r'.body.blobIndex = i := by simpa using List.find?_some hfind
      have hji : j = i := (m.records_index j r' hj).symm.trans hindex
      subst hji
      exact congrArg some (Option.some.inj (Option.some.inj (hj.symm.trans hr)))

/-- **A stored row decodes**, to the row it was, but for the rounds of its records. -/
theorem fromProto_toProto (m : BlobMetadata) :
    ∃ m', fromProto m.toProto = .ok m' ∧ m'.core = m.core ∧
      m'.blobKeccakHashes = m.blobKeccakHashes ∧ m'.pruned = m.pruned ∧
      ∀ i, m'.archivalStatus i = (m.archivalStatus i).map ArchiveRecord.transmit := by
  have hcommitments : decodeAll KzgCommitment.fromSlice
      (m.blobKzgCommitments.map fun c => bitVecBytes c.bytes) = .ok m.blobKzgCommitments :=
    decodeAll_map fun c _ => c.fromSlice_bytes
  have hkeccaks : decodeAll b256FromSlice (m.blobKeccakHashes.map bitVecBytes) =
      .ok m.blobKeccakHashes := decodeAll_map fun v _ => b256FromSlice_bytes v
  have hcount : u16TryFrom "blob_count" m.blobKzgCommitments.length =
      .ok m.blobKzgCommitments.length := if_pos m.count_le
  obtain ⟨row, hrow, hcore, hkeccak, hpruned, hstatus⟩ :=
    @setRecords_ok m.archivalRecords.reduceOption
      { m with
        parentBlobRoot := 0
        executionPayloadHeader := genesisHeader
        archivalRecords := List.replicate m.blobKzgCommitments.length none
        records_length := noRecords_length m.blobKzgCommitments
        records_index := noRecords_index m.blobKzgCommitments }
      fun r hr => m.placed r (List.reduceOption_mem_iff.1 hr)
  have hnone : ∀ i : Nat,
      ((List.replicate m.blobKzgCommitments.length (none : Option ArchiveRecord))[i]?).join =
        none := by
    intro i
    rw [List.getElem?_replicate]
    split <;> rfl
  refine ⟨{ row with
    executionPayloadHeader := m.executionPayloadHeader
    parentBlobRoot := m.parentBlobRoot }, ?_, ?_, hkeccak, hpruned, fun i => ?_⟩
  · unfold fromProto toProto
    simp only [hcommitments, hkeccaks, hcount, Exit.ok_bind, m.keccak_length, dite_true, true_and,
      m.count_le, required, ExecutionPayloadHeader.fromProto_toProto, b256FromSlice_bytes]
    rw [hrow]
    rfl
  · simp only [core, BlobCore.mk.injEq] at hcore ⊢
    exact ⟨hcore.1, trivial, hcore.2.2.1, trivial, hcore.2.2.2.2⟩
  · refine (hstatus i).trans ?_
    rw [m.find?_reduceOption i]
    unfold archivalStatus
    dsimp only
    rw [hnone i]
    cases (m.archivalRecords[i]?).join <;> rfl

end BlobMetadata

/-! ## Block payloads -/

/-- `BlockPayloadRecord::encode`, as a message. -/
def BlockPayloadRecord.toProto (r : BlockPayloadRecord) : Bytes × List Bytes :=
  (r.executionPayloadSsz, r.executionRequests)

/-- `BlockPayloadRecord::decode` of a message; bytes that are no message are a bare payload. -/
def BlockPayloadRecord.fromProto : Option (Bytes × List Bytes) → Bytes → BlockPayloadRecord
  | some p, _ => ⟨p.1, p.2⟩
  | none, bytes => ⟨bytes, []⟩

end Ultramarine
