import Ultramarine.Types.Value

/-!
# Proposals, certificates and synced packages

The messages of the node: the parts a proposal is streamed in, the value consensus is told about,
the certificate it decides with, and the package a lagging peer is sent. `ValidatorSet` is a list
in genesis order, less immediate repetitions; `LoadContext.selectProposer` is the round-robin choice the engine uses.
-/

namespace Ultramarine

open Lib Ssz

/-- `BlobSidecar` -/
structure BlobSidecar where
  index : Nat
  blob : Blob
  kzgCommitment : KzgCommitment
  kzgProof : KzgProof
  signedBlockHeader : SignedBeaconBlockHeader
  kzgCommitmentInclusionProof : List B256
deriving DecidableEq

/-- `BlobSidecar::blob_keccak` -/
def BlobSidecar.blobKeccak (o : Oracles) (s : BlobSidecar) : B256 := s.blob.keccakHash o

/-- `versioned_hashes_from_sidecars` -/
def versionedHashesFromSidecars (o : Oracles) (sidecars : List BlobSidecar) : List B256 :=
  sidecars.map fun s => versionedHash o s.kzgCommitment

/-- `BlobsBundle` -/
structure BlobsBundle where
  commitments : List KzgCommitment
  proofs : List KzgProof
  blobs : List Blob
deriving DecidableEq

/-- `ProposalInit` -/
structure ProposalInit where
  height : Height
  round : Round
  proposer : Address
deriving DecidableEq, Repr

/-- `ProposalData` -/
structure ProposalData where
  bytes : Bytes
  executionRequests : List Bytes
deriving DecidableEq, Repr

/-- `ProposalPart` -/
inductive ProposalPart where
  | init (init : ProposalInit)
  | data (data : ProposalData)
  | blobSidecar (sidecar : BlobSidecar)
  | archiveNotice (notice : ArchiveNotice)
  | fin (signature : Signature)
deriving DecidableEq

namespace ProposalPart

/-- `ProposalPart::as_init` -/
def asInit : ProposalPart → Option ProposalInit
  | init i => some i
  | _ => none

/-- `ProposalPart::as_data` -/
def asData : ProposalPart → Option ProposalData
  | data d => some d
  | _ => none

/-- `ProposalPart::as_blob_sidecar` -/
def asBlobSidecar : ProposalPart → Option BlobSidecar
  | blobSidecar s => some s
  | _ => none

/-- `ProposalPart::as_archive_notice` -/
def asArchiveNotice : ProposalPart → Option ArchiveNotice
  | archiveNotice n => some n
  | _ => none

/-- The signature of a `Fin` part. -/
def asFin : ProposalPart → Option Signature
  | fin s => some s
  | _ => none

end ProposalPart

/-- `StreamContent` -/
inductive StreamContent where
  | data (part : ProposalPart)
  | fin
deriving DecidableEq

/-- `StreamMessage` -/
structure StreamMessage where
  streamId : Bytes
  sequence : Nat
  content : StreamContent
deriving DecidableEq

/-- `Validity` -/
inductive Validity where
  | valid
  | invalid
deriving DecidableEq, Repr

/-- `ProposedValue` -/
structure ProposedValue where
  height : Height
  round : Round
  validRound : Round
  proposer : Address
  value : Value
  validity : Validity
deriving DecidableEq, Repr

/-- `CommitCertificate` -/
structure CommitCertificate where
  height : Height
  round : Round
  valueId : Nat
  commitSignatures : List (Address × Signature)
deriving DecidableEq, Repr

/-- `DecidedValue` -/
structure DecidedValue where
  value : Value
  certificate : CommitCertificate
deriving DecidableEq, Repr

/-- `BlockPayloadRecord`: the payload bytes and the execution requests of a block. -/
structure BlockPayloadRecord where
  executionPayloadSsz : Bytes
  executionRequests : List Bytes
deriving DecidableEq, Repr

/-- `SyncedValuePackage` -/
inductive SyncedValuePackage where
  | full (value : Value) (executionPayloadSsz : Bytes) (blobSidecars : List BlobSidecar)
      (executionRequests : List Bytes) (archiveNotices : List ArchiveNotice)
  | metadataOnly (value : Value) (archiveNotices : List ArchiveNotice)
      (executionPayloadSsz : Option Bytes) (executionRequests : List Bytes)
deriving DecidableEq

/-- What a notice becomes on the wire and back: its round goes through `i32`. -/
def ArchiveNotice.transmit (n : ArchiveNotice) : ArchiveNotice :=
  { n with body := .fromProto n.body.toProto }

/-- `SyncedValuePackage::encode`, then `SyncedValuePackage::decode`. Notices go through their wire
form, and an empty payload of a `MetadataOnly` package reads back as no payload. -/
def SyncedValuePackage.transmit : SyncedValuePackage → SyncedValuePackage
  | full v payload sidecars requests notices =>
    full v payload sidecars requests (notices.map ArchiveNotice.transmit)
  | metadataOnly v notices payload requests =>
    let bytes := payload.getD []
    metadataOnly v (notices.map ArchiveNotice.transmit)
      (if bytes = [] then none else some bytes) requests

/-- `Validator` -/
structure Validator where
  address : Address
  publicKey : PublicKey
  votingPower : Nat
deriving DecidableEq, Repr

/-- `ValidatorSet`: never empty. -/
structure ValidatorSet where
  validators : List Validator
  ne_nil : validators ≠ []
deriving DecidableEq

namespace ValidatorSet

/-- `ValidatorSet::sort_validators`: `vals.dedup()`, which removes consecutive repetitions. The sort
before it is commented out. -/
def sortValidators (vals : List Validator) : List Validator := vals.destutter (· ≠ ·)

/-- `ValidatorSet::new`; `none` where it asserts. -/
def new (validators : List Validator) : Option ValidatorSet :=
  if h : sortValidators validators = [] then none else some ⟨sortValidators validators, h⟩

/-- `ValidatorSet::total_voting_power`: a `u64` sum, which wraps in the release profile. -/
def totalVotingPower (vs : ValidatorSet) : Nat := (vs.validators.map (·.votingPower)).sum % 2 ^ 64

/-- `ValidatorSet::get_by_address`: the first validator with the address. -/
def getByAddress (vs : ValidatorSet) (a : Address) : Option Validator :=
  vs.validators.find? fun v => v.address == a

/-- `State::validator_index`: the position of the first validator with the address. -/
def validatorIndex (vs : ValidatorSet) (a : Address) : Option Nat :=
  vs.validators.findIdx? fun v => v.address == a

/-- Both lookups succeed on the same addresses. -/
theorem isSome_validatorIndex (vs : ValidatorSet) (a : Address) :
    (vs.validatorIndex a).isSome = (vs.getByAddress a).isSome := by
  unfold validatorIndex getByAddress
  rw [List.findIdx?_isSome, Bool.eq_iff_iff, List.find?_isSome, List.any_eq_true]

theorem validatorIndex_eq_some {vs : ValidatorSet} {a : Address} {i : Nat}
    (h : vs.validatorIndex a = some i) : ∃ v, vs.validators[i]? = some v ∧ v.address = a := by
  obtain ⟨hlt, hp, _⟩ := List.findIdx?_eq_some_iff_getElem.1 h
  exact ⟨_, List.getElem?_eq_getElem hlt, by simpa using hp⟩

/-- Two validators have two indices. -/
theorem validatorIndex_inj {vs : ValidatorSet} {a b : Address} {i : Nat}
    (ha : vs.validatorIndex a = some i) (hb : vs.validatorIndex b = some i) : a = b := by
  obtain ⟨v, hv, rfl⟩ := validatorIndex_eq_some ha
  obtain ⟨w, hw, rfl⟩ := validatorIndex_eq_some hb
  rw [Option.some.inj (hv.symm.trans hw)]

end ValidatorSet

/-- `LoadContext::select_proposer`; `none` on a nil round, where it asserts, and at height 0, where
`height - 1` underflows. -/
def LoadContext.selectProposer (vs : ValidatorSet) (height : Height) : Round → Option Validator
  | .nil => none
  | .some r =>
    if height = 0 then none else vs.validators[(height - 1 + r) % vs.validators.length]?

end Ultramarine
