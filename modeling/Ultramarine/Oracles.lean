import Ultramarine.Types.Execution
import Ultramarine.Types.Archive

/-!
# External primitives

What the node calls and does not implement itself: hash functions, ed25519, KZG verification, the
SSZ codec of the payload, the transaction decoder. Every property that needs one of them to be
honest says so through a hypothesis of its own.
-/

namespace Ultramarine

open Lib

/-- The primitives the node calls and does not implement. -/
structure Oracles where
  /-- `hash32_concat`: SHA-256 of two 32-byte chunks. -/
  hash32Concat : B256 → B256 → B256
  /-- `Keccak256` -/
  keccak256 : Bytes → B256
  /-- `Sha256` -/
  sha256 : Bytes → B256
  /-- `DefaultHasher`, from the bytes written to it to its `u64`. -/
  defaultHasher : Bytes → Nat
  /-- ed25519: the public key of a private key. -/
  publicKey : PrivateKey → PublicKey
  /-- ed25519: sign a message. -/
  sign : PrivateKey → Bytes → Signature
  /-- ed25519: verify a signature over a message. -/
  verify : PublicKey → Bytes → Signature → Bool
  /-- c-kzg batch verification of blobs against commitments and proofs. -/
  verifyBlobKzgProofBatch : List (Blob × KzgCommitment × KzgProof) → Bool
  /-- SSZ encoding of a payload. -/
  asSszBytes : ExecutionPayloadV3 → Bytes
  /-- SSZ decoding of a payload. -/
  fromSszBytes : Bytes → Option ExecutionPayloadV3
  /-- `try_into_block`, then the blob versioned hashes of its transactions in order. -/
  tryIntoBlock : ExecutionPayloadV3 → Option (List B256)
  /-- EIP-7685 hash of an execution-request list. -/
  computeRequestsHash : List Bytes → B256
  /-- Protobuf encoding of a notice body. -/
  encodeArchiveNoticeBody : ProtoArchiveNoticeBody → Bytes

/-- `Blob::keccak_hash` -/
def Blob.keccakHash (o : Oracles) (b : Blob) : B256 := o.keccak256 b.data

/-- The EIP-4844 versioned hash: SHA-256 of the commitment, its first byte set to `0x01`. -/
def versionedHash (o : Oracles) (c : KzgCommitment) : B256 :=
  1#8 ++ (o.sha256 (bitVecBytes c.bytes)).setWidth 248

/-- `versioned_hashes_from_commitments` -/
def versionedHashesFromCommitments (o : Oracles) (cs : List KzgCommitment) : List B256 :=
  cs.map (versionedHash o)

/-- `ARCHIVE_NOTICE_DOMAIN` -/
def archiveNoticeDomain : Bytes := "ArchiveNoticeV0".toUTF8.toList

/-- `ArchiveNoticeBody::signing_root` -/
def ArchiveNoticeBody.signingRoot (o : Oracles) (b : ArchiveNoticeBody) : Bytes :=
  bitVecBytes (o.sha256 (archiveNoticeDomain ++ o.encodeArchiveNoticeBody b.toProto))

/-- `ArchiveNotice::verify` -/
def ArchiveNotice.verify (o : Oracles) (n : ArchiveNotice) (key : PublicKey) : Bool :=
  o.verify key (n.body.signingRoot o) n.signature

/-- `ArchiveNotice::sign` -/
def ArchiveNotice.sign (o : Oracles) (b : ArchiveNoticeBody) (key : PrivateKey) : ArchiveNotice :=
  ⟨b, o.sign key (b.signingRoot o)⟩

end Ultramarine
