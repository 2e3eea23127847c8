import Ultramarine.Lib.Wire
import Ultramarine.Types.Codec

/-!
# What the network carries

The Protobuf messages of proposal streams, synced packages, proposed values and certificates
(`types/src/proposal_part.rs`, `sync.rs`, `codec/proto/mod.rs`). Prost's wire format is a parameter:
`Wires` has one format for each message.

`survives_iff`, for each type: what can be encoded and decodes to what it was. A round that must be a
`u32` may not be nil, and a notice keeps its round only up to `i32::MAX`, since `as i32` wraps. The
other conditions are the ranges of the Rust types, where a model field is a `Nat`.
-/

namespace Ultramarine

open Lib Ssz

/-! ## Archive notices -/

/-- A body that reads back as it was: its index is a `u16` and its round is nil or within `i32`. -/
def ArchiveNoticeBody.WellFormed (b : ArchiveNoticeBody) : Prop :=
  b.blobIndex ≤ u16Max ∧ b.round.asI64 ≤ i32Max

instance (b : ArchiveNoticeBody) : Decidable b.WellFormed := inferInstanceAs (Decidable (_ ∧ _))

theorem ArchiveNoticeBody.fromProto_toProto_iff {b : ArchiveNoticeBody} :
    fromProto b.toProto = b ↔ b.round.asI64 ≤ i32Max := by
  rw [← roundFromProto_roundToProto_iff]
  exact ⟨fun h => congrArg ArchiveNoticeBody.round h, fun h => by
    unfold fromProto toProto
    rw [h]⟩

theorem u16TryFrom_eq_ok {name : String} {n m : Nat} :
    u16TryFrom name n = .ok m ↔ n ≤ u16Max ∧ n = m := by
  unfold u16TryFrom
  split <;> simp [*]

@[simp] theorem required_eq_ok {α : Type} {name : String} {x : Option α} {a : α} :
    required name x = .ok a ↔ x = some a := by
  cases x <;> simp [required]

/-- A signed body survives its message exactly when it is well formed. -/
theorem signedBody_survives_iff {name : String} {b : ArchiveNoticeBody} {s : Signature} :
    signedBodyFromProto name (some b.toProto.toWire) (some (bitVecBytes s.bytes)) = .ok (b, s) ↔
      b.WellFormed := by
  constructor
  · intro h
    have hindex : b.toProto.blobIndex ≤ u16Max := by
      unfold signedBodyFromProto ArchiveNoticeBody.fromWire at h
      simp only [Exit.bind_eq_ok, required_eq_ok, u16TryFrom_eq_ok] at h
      obtain ⟨_, hbody, _, ⟨_, ⟨hle, _⟩, _⟩, _⟩ := h
      cases hbody
      exact hle
    rw [signedBodyFromProto_toWire hindex] at h
    have hbody : ArchiveNoticeBody.fromProto b.toProto = b := (Prod.mk.inj (Exit.ok.inj h)).1
    exact ⟨hindex, ArchiveNoticeBody.fromProto_toProto_iff.1 hbody⟩
  · rintro ⟨hindex, hround⟩
    rw [signedBodyFromProto_toWire hindex, ArchiveNoticeBody.fromProto_toProto hround]

/-- `proto::ArchiveNotice` -/
structure ProtoArchiveNotice where
  body : Option WireNoticeBody
  signature : Option Bytes
deriving DecidableEq

namespace ArchiveNotice

/-- `ArchiveNotice::to_proto` -/
def toProto (n : ArchiveNotice) : ProtoArchiveNotice :=
  ⟨some n.body.toProto.toWire, some (bitVecBytes n.signature.bytes)⟩

/-- `ArchiveNotice::from_proto` -/
def fromProto (p : ProtoArchiveNotice) : Exit ProtoErr ArchiveNotice :=
  signedBodyFromProto "signature" p.body p.signature >>= fun r => pure ⟨r.1, r.2⟩

theorem fromProto_toProto {n : ArchiveNotice} (h : n.body.blobIndex ≤ u16Max) :
    fromProto n.toProto = .ok n.transmit := by
  unfold fromProto toProto
  have hindex : n.body.toProto.blobIndex ≤ u16Max := h
  simp only [signedBodyFromProto_toWire hindex, Exit.ok_bind]
  rfl

theorem survives_iff {n : ArchiveNotice} : fromProto n.toProto = .ok n ↔ n.body.WellFormed := by
  rw [← @signedBody_survives_iff "signature" n.body n.signature]
  unfold fromProto toProto
  simp only [Exit.bind_eq_ok, Exit.pure_eq_ok, Exit.ok.injEq]
  constructor
  · rintro ⟨⟨b, s⟩, h, rfl⟩
    exact h
  · exact fun h => ⟨_, h, rfl⟩

end ArchiveNotice

/-! ## Proposal parts -/

/-- `proto::proposal_part::Part` -/
inductive ProtoPart where
  | init (height : Height) (round : Nat) (proposer : Option Bytes)
  | data (bytes : Bytes) (executionRequests : List Bytes)
  | blobSidecar (sidecar : ProtoBlobSidecar)
  | archiveNotice (notice : ProtoArchiveNotice)
  | fin (signature : Option Bytes)
deriving DecidableEq

/-- `proto::ProposalPart` -/
structure ProtoProposalPart where
  part : Option ProtoPart
deriving DecidableEq

theorem BlobSidecar.survives_iff {s : BlobSidecar} :
    fromProto s.toProto = .ok s ↔ s.index ≤ u16Max := by
  refine ⟨fun h => ?_, fromProto_toProto⟩
  unfold fromProto at h
  simp only [Exit.bind_eq_ok, u16TryFrom_eq_ok] at h
  obtain ⟨_, _, _, _, _, _, _, _, _, _, _, _, _, ⟨hle, _⟩, _⟩ := h
  exact hle

namespace ProposalPart

/-- The sidecar branch of `ProposalPart::to_proto`, which has its own copy of the conversion. -/
def sidecarToProto (s : BlobSidecar) : ProtoBlobSidecar :=
  let header : ProtoSignedHeader :=
    { message := some
        { slot := s.signedBlockHeader.message.slot
          proposerIndex := s.signedBlockHeader.message.proposerIndex
          parentRoot := bitVecBytes s.signedBlockHeader.message.parentRoot
          stateRoot := bitVecBytes s.signedBlockHeader.message.stateRoot
          bodyRoot := bitVecBytes s.signedBlockHeader.message.bodyRoot }
      signature := some (bitVecBytes s.signedBlockHeader.signature.bytes) }
  let proof := s.kzgCommitmentInclusionProof.map bitVecBytes
  { index := s.index
    blob := s.blob.data
    kzgCommitment := bitVecBytes s.kzgCommitment.bytes
    kzgProof := bitVecBytes s.kzgProof.bytes
    signedBlockHeader := some header
    kzgCommitmentInclusionProof := proof }

/-- The sidecar branch of `ProposalPart::from_proto`, likewise. -/
def sidecarFromProto (p : ProtoBlobSidecar) : Exit ProtoErr BlobSidecar := do
  let blob ← Blob.fromBytes p.blob
  let kzgCommitment ← KzgCommitment.fromSlice p.kzgCommitment
  let kzgProof ← KzgProof.fromSlice p.kzgProof
  let header ← required "signed_block_header" p.signedBlockHeader
  let signedBlockHeader ← BlobSidecar.headerFromProto header
  let proof ← decodeAll b256FromSlice p.kzgCommitmentInclusionProof
  let index ← u16TryFrom "index in ProposalPart::BlobSidecar" p.index
  pure ⟨index, blob, kzgCommitment, kzgProof, signedBlockHeader, proof⟩

/-- The two copies make one message. -/
theorem sidecarToProto_eq (s : BlobSidecar) : sidecarToProto s = s.toProto := rfl

/-- The two copies accept the same messages; only the text of one error differs. -/
theorem sidecarFromProto_eq_ok {p : ProtoBlobSidecar} {s : BlobSidecar} :
    sidecarFromProto p = .ok s ↔ BlobSidecar.fromProto p = .ok s := by
  unfold sidecarFromProto BlobSidecar.fromProto
  simp only [Exit.bind_eq_ok, u16TryFrom_eq_ok]

/-- `ProposalPart::to_proto`: a nil `Init` round is refused. -/
def toProto : ProposalPart → Exit ProtoErr ProtoProposalPart
  | init i =>
    match i.round with
    | .nil => .error .nilRound
    | .some r => .ok ⟨some (.init i.height r (some (bitVecBytes i.proposer.bytes)))⟩
  | data d => .ok ⟨some (.data d.bytes d.executionRequests)⟩
  | blobSidecar s => .ok ⟨some (.blobSidecar (sidecarToProto s))⟩
  | archiveNotice n => .ok ⟨some (.archiveNotice n.toProto)⟩
  | fin s => .ok ⟨some (.fin (some (bitVecBytes s.bytes)))⟩

/-- `ProposalPart::from_proto`, on the part that is there. -/
def partFromProto : ProtoPart → Exit ProtoErr ProposalPart
  | .init height round proposer => do
    let proposer ← required "proposer" proposer
    let proposer ← Address.fromProto proposer
    pure (.init ⟨height, .some round, proposer⟩)
  | .data bytes requests => .ok (.data ⟨bytes, requests⟩)
  | .blobSidecar p => sidecarFromProto p >>= fun s => pure (.blobSidecar s)
  | .archiveNotice p => ArchiveNotice.fromProto p >>= fun n => pure (.archiveNotice n)
  | .fin signature => do
    let signature ← required "signature" signature
    let signature ← Signature.fromProto signature
    pure (.fin signature)

/-- `ProposalPart::from_proto` -/
def fromProto (p : ProtoProposalPart) : Exit ProtoErr ProposalPart :=
  required "part" p.part >>= partFromProto

/-- A part that reads back as it was. -/
def WellFormed : ProposalPart → Prop
  | init i => i.round ≠ .nil
  | blobSidecar s => s.index ≤ u16Max
  | archiveNotice n => n.body.WellFormed
  | data _ => True
  | fin _ => True

instance : DecidablePred WellFormed
  | init i => inferInstanceAs (Decidable (i.round ≠ .nil))
  | blobSidecar s => inferInstanceAs (Decidable (s.index ≤ u16Max))
  | archiveNotice n => inferInstanceAs (Decidable n.body.WellFormed)
  | data _ => isTrue trivial
  | fin _ => isTrue trivial

/-- **A part survives its message exactly when it is well formed.** -/
theorem survives_iff {part : ProposalPart} :
    Survives toProto fromProto part ↔ part.WellFormed := by
  cases part with
  | init i =>
    obtain ⟨height, round, proposer⟩ := i
    cases round with
    | nil => simp [Survives, toProto, WellFormed]
    | some r =>
      simp [Survives, toProto, fromProto, partFromProto, required, WellFormed]
  | data d => simp [Survives, toProto, fromProto, partFromProto, required, WellFormed]
  | blobSidecar s =>
    have hsurvives : sidecarFromProto s.toProto = .ok s ↔ s.index ≤ u16Max :=
      sidecarFromProto_eq_ok.trans BlobSidecar.survives_iff
    simp only [Survives, toProto, sidecarToProto_eq, fromProto, partFromProto, required,
      Exit.ok.injEq, exists_eq_left', Exit.bind_eq_ok, Exit.pure_eq_ok,
      blobSidecar.injEq, exists_eq_right, hsurvives, WellFormed]
  | archiveNotice n =>
    simp only [Survives, toProto, fromProto, partFromProto, required, Exit.ok.injEq,
      exists_eq_left', Exit.bind_eq_ok, Exit.pure_eq_ok, archiveNotice.injEq,
      exists_eq_right, ArchiveNotice.survives_iff, WellFormed]
  | fin s => simp [Survives, toProto, fromProto, partFromProto, required, WellFormed]

end ProposalPart

/-! ## Stream messages -/

/-- `proto::stream_message::Content` -/
inductive ProtoStreamContent where
  | data (bytes : Bytes)
  | fin (value : Bool)
deriving DecidableEq

/-- `proto::StreamMessage` -/
structure ProtoStreamMessage where
  streamId : Bytes
  sequence : Nat
  content : Option ProtoStreamContent
deriving DecidableEq

namespace StreamMessage

variable (w : Wire ProtoProposalPart)

/-- `Codec::<StreamMessage>::encode`, up to the message: a part is nested as bytes. -/
def toProto (m : StreamMessage) : Exit ProtoErr ProtoStreamMessage :=
  match m.content with
  | .data part => w.toBytes ProposalPart.toProto part >>= fun bytes =>
      .ok ⟨m.streamId, m.sequence, some (.data bytes)⟩
  | .fin => .ok ⟨m.streamId, m.sequence, some (.fin true)⟩

/-- The content of a stream message. -/
def contentFromProto : ProtoStreamContent → Exit ProtoErr StreamContent
  | .data bytes => w.fromBytes .wire ProposalPart.fromProto bytes >>= fun part => pure (.data part)
  | .fin _ => pure .fin

/-- `Codec::<StreamMessage>::decode`, from the message. -/
def fromProto (p : ProtoStreamMessage) : Exit ProtoErr StreamMessage := do
  let content ← required "content" p.content
  let content ← contentFromProto w content
  pure ⟨p.streamId, p.sequence, content⟩

/-- A message that reads back as it was. -/
def WellFormed (m : StreamMessage) : Prop :=
  match m.content with
  | .data part => part.WellFormed
  | .fin => True

/-- **A stream message survives exactly when the part it carries does.** -/
theorem survives_iff {m : StreamMessage} :
    Survives (toProto w) (fromProto w) m ↔ m.WellFormed := by
  obtain ⟨id, sequence, content⟩ := m
  cases content with
  | fin => simp [Survives, toProto, fromProto, contentFromProto, required, WellFormed]
  | data part =>
    have hpart := (Wire.survives_bytes (w := w) (e := .wire)).trans part.survives_iff
    have hdecode : ∀ bytes, fromProto w ⟨id, sequence, some (.data bytes)⟩ =
        (w.fromBytes .wire ProposalPart.fromProto bytes >>= fun part =>
          .ok ⟨id, sequence, .data part⟩) := by
      intro bytes
      simp only [fromProto, required, Exit.ok_bind, contentFromProto, bind_assoc, Exit.pure_eq_ok]
    simp only [WellFormed, ← hpart]
    constructor
    · rintro ⟨p, henc, hdec⟩
      obtain ⟨bytes, hbytes, hp⟩ := Exit.bind_eq_ok.1 henc
      cases hp
      obtain ⟨part', hpart', heq⟩ := Exit.bind_eq_ok.1 ((hdecode bytes).symm.trans hdec)
      cases heq
      exact ⟨bytes, hbytes, hpart'⟩
    · rintro ⟨bytes, henc, hdec⟩
      refine ⟨_, Exit.bind_eq_ok.2 ⟨bytes, henc, rfl⟩, (hdecode bytes).trans ?_⟩
      exact Exit.bind_eq_ok.2 ⟨part, hdec, rfl⟩

end StreamMessage

/-! ## Synced packages -/

/-- `proto::SyncedValuePackage` -/
inductive ProtoPackage where
  | full (value : Option ProtoValue) (executionPayloadSsz : Bytes)
      (blobSidecars : List ProtoBlobSidecar) (executionRequests : List Bytes)
      (archiveNotices : List ProtoArchiveNotice)
  | metadataOnly (value : Option ProtoValue) (archiveNotices : List ProtoArchiveNotice)
      (executionPayloadSsz : Bytes) (executionRequests : List Bytes)
deriving DecidableEq

/-- `proto::SyncedValuePackage` -/
structure ProtoSyncedValuePackage where
  package : Option ProtoPackage
deriving DecidableEq

theorem Value.survives_iff {v : Value} :
    fromProto v.toProto = .ok v ↔ v.metadata.blobCount ≤ u16Max := by
  refine ⟨fun h => ?_, fromProto_toProto⟩
  unfold fromProto toProto ValueMetadata.fromProto at h
  simp only [Exit.bind_eq_ok, u16TryFrom_eq_ok] at h
  obtain ⟨_, ⟨_, _, _, _, _, _, _, ⟨hle, _⟩, _⟩, _⟩ := h
  exact hle

namespace SyncedValuePackage

/-- `SyncedValuePackage::to_proto`: no payload is an empty one. -/
def toProto : SyncedValuePackage → ProtoSyncedValuePackage
  | full v payload sidecars requests notices =>
    ⟨some (.full (some v.toProto) payload (sidecars.map BlobSidecar.toProto) requests
      (notices.map ArchiveNotice.toProto))⟩
  | metadataOnly v notices payload requests =>
    ⟨some (.metadataOnly (some v.toProto) (notices.map ArchiveNotice.toProto) (payload.getD [])
      requests)⟩

/-- `SyncedValuePackage::from_proto`, on the package that is there. -/
def packageFromProto : ProtoPackage → Exit ProtoErr SyncedValuePackage
  | .full value payload sidecars requests notices => do
    let value ← required "value" value
    let value ← Value.fromProto value
    let sidecars ← decodeAll BlobSidecar.fromProto sidecars
    let notices ← decodeAll ArchiveNotice.fromProto notices
    pure (.full value payload sidecars requests notices)
  | .metadataOnly value notices payload requests => do
    let value ← required "value" value
    let value ← Value.fromProto value
    let notices ← decodeAll ArchiveNotice.fromProto notices
    pure (.metadataOnly value notices (if payload = [] then none else some payload) requests)

/-- `SyncedValuePackage::from_proto` -/
def fromProto (p : ProtoSyncedValuePackage) : Exit ProtoErr SyncedValuePackage :=
  required "package" p.package >>= packageFromProto

/-- A package that reads back as it was. -/
def WellFormed : SyncedValuePackage → Prop
  | full v _ sidecars _ notices => v.metadata.blobCount ≤ u16Max ∧
      (∀ s ∈ sidecars, s.index ≤ u16Max) ∧ ∀ n ∈ notices, n.body.WellFormed
  | metadataOnly v notices payload _ => v.metadata.blobCount ≤ u16Max ∧
      (∀ n ∈ notices, n.body.WellFormed) ∧ payload ≠ some []

/-- An empty payload is the one that is lost. -/
theorem payload_survives_iff {payload : Option Bytes} :
    (if payload.getD [] = [] then none else some (payload.getD [])) = payload ↔
      payload ≠ some [] := by
  cases payload with
  | none => simp
  | some bytes => cases bytes <;> simp

/-- **A package survives its message exactly when it is well formed.** -/
theorem survives_iff {p : SyncedValuePackage} :
    fromProto p.toProto = .ok p ↔ p.WellFormed := by
  cases p with
  | full v payload sidecars requests notices =>
    simp only [fromProto, toProto, required, Exit.ok_bind, packageFromProto, Exit.bind_eq_ok,
      Exit.pure_eq_ok, Exit.ok.injEq, full.injEq, true_and, WellFormed, ← Value.survives_iff,
      ← BlobSidecar.survives_iff, ← ArchiveNotice.survives_iff, ← decodeAll_map_iff]
    constructor
    · rintro ⟨_, hv, _, hs, _, hn, rfl, rfl, rfl⟩
      exact ⟨hv, hs, hn⟩
    · rintro ⟨hv, hs, hn⟩
      exact ⟨v, hv, sidecars, hs, notices, hn, rfl, rfl, rfl⟩
  | metadataOnly v notices payload requests =>
    simp only [fromProto, toProto, required, Exit.ok_bind, packageFromProto, Exit.bind_eq_ok,
      Exit.pure_eq_ok, Exit.ok.injEq, metadataOnly.injEq, and_true, WellFormed,
      ← Value.survives_iff, ← ArchiveNotice.survives_iff, ← decodeAll_map_iff,
      payload_survives_iff]
    constructor
    · rintro ⟨_, hv, _, hn, rfl, rfl, hp⟩
      exact ⟨hv, hn, hp⟩
    · rintro ⟨hv, hn, hp⟩
      exact ⟨v, hv, notices, hn, rfl, rfl, hp⟩

end SyncedValuePackage

/-! ## Proposed values -/

/-- `proto::ProposedValue` -/
structure ProtoProposedValue where
  height : Height
  round : Nat
  validRound : Option Nat
  proposer : Option Bytes
  value : Option ProtoValue
  validity : Bool
deriving DecidableEq

/-- `Round::as_u32` -/
def Round.asU32 : Round → Option Nat
  | nil => none
  | some r => Option.some r

namespace ProposedValue

/-- `Codec::<ProposedValue>::encode`, up to the message: a nil round is refused. -/
def toProto (v : ProposedValue) : Exit ProtoErr ProtoProposedValue := do
  let round ← Exit.ofOption .nilRound v.round.asU32
  pure
    { height := v.height
      round
      validRound := v.validRound.asU32
      proposer := some (bitVecBytes v.proposer.bytes)
      value := some v.value.toProto
      validity := decide (v.validity = .valid) }

/-- `Codec::<ProposedValue>::decode`, from the message. -/
def fromProto (p : ProtoProposedValue) : Exit ProtoErr ProposedValue := do
  let proposer ← required "proposer" p.proposer
  let value ← required "value" p.value
  let proposer ← Address.fromProto proposer
  let value ← Value.fromProto value
  pure
    { height := p.height
      round := .some p.round
      validRound := p.validRound.elim .nil .some
      proposer, value
      validity := if p.validity then .valid else .invalid }

/-- A proposed value that reads back as it was. -/
def WellFormed (v : ProposedValue) : Prop :=
  v.round ≠ .nil ∧ v.value.metadata.blobCount ≤ u16Max

/-- **A proposed value survives its message exactly when it is well formed.** -/
theorem survives_iff {v : ProposedValue} : Survives toProto fromProto v ↔ v.WellFormed := by
  obtain ⟨height, round, validRound, proposer, value, validity⟩ := v
  have hvalid : validRound.asU32.elim .nil .some = validRound := by cases validRound <;> rfl
  have hvalidity : (if validity = .valid then Validity.valid else .invalid) = validity := by
    cases validity <;> rfl
  cases round with
  | nil => simp [Survives, toProto, Round.asU32, Exit.ofOption, WellFormed]
  | some r =>
    have hround : (Round.some r).asU32 = some r := rfl
    simp only [Survives, toProto, hround, Exit.ofOption, Exit.ok_bind, Exit.pure_eq_ok,
      Exit.ok.injEq, exists_eq_left', fromProto, required, Address.fromProto_bytes,
      Exit.bind_eq_ok, ProposedValue.mk.injEq, hvalid, decide_eq_true_eq, hvalidity, true_and,
      and_true, exists_eq_right, Value.survives_iff, WellFormed, ne_eq, reduceCtorEq,
      not_false_eq_true]

end ProposedValue

/-! ## Certificates -/

/-- `PolkaCertificate` -/
structure PolkaCertificate where
  height : Height
  round : Round
  valueId : Nat
  polkaSignatures : List (Address × Signature)
deriving DecidableEq, Repr

/-- `VoteType` -/
inductive VoteType where
  | prevote
  | precommit
deriving DecidableEq, Repr

/-- `RoundCertificateType` -/
inductive RoundCertificateType where
  | precommit
  | skip
deriving DecidableEq, Repr

/-- `RoundSignature`; no value is a vote for nil. -/
structure RoundSignature where
  voteType : VoteType
  valueId : Option Nat
  address : Address
  signature : Signature
deriving DecidableEq, Repr

/-- `RoundCertificate` -/
structure RoundCertificate where
  height : Height
  round : Round
  certType : RoundCertificateType
  roundSignatures : List RoundSignature
deriving DecidableEq, Repr

/-- `proto::PolkaCertificate` -/
structure ProtoPolkaCertificate where
  height : Height
  round : Nat
  valueId : Option Nat
  signatures : List (Option Bytes × Option Bytes)
deriving DecidableEq

/-- `proto::RoundSignature` -/
structure ProtoRoundSignature where
  voteType : Int
  validatorAddress : Option Bytes
  signature : Option Bytes
  valueId : Option Nat
deriving DecidableEq

/-- `proto::RoundCertificate` -/
structure ProtoRoundCertificate where
  height : Height
  round : Nat
  certType : Int
  signatures : List ProtoRoundSignature
deriving DecidableEq

theorem CommitCertificate.survives_iff {c : CommitCertificate} :
    Survives toProto fromProto c ↔ c.round ≠ .nil := by
  refine ⟨fun ⟨p, henc, _⟩ hnil => ?_, fromProto_toProto⟩
  unfold toProto at henc
  rw [hnil] at henc
  cases henc

namespace PolkaCertificate

/-- `encode_polka_certificate`: a nil round is refused. -/
def toProto (c : PolkaCertificate) : Exit ProtoErr ProtoPolkaCertificate := do
  let round ← Exit.ofOption .nilRound c.round.asU32
  pure ⟨c.height, round, some c.valueId, c.polkaSignatures.map fun s =>
    (some (bitVecBytes s.1.bytes), some (bitVecBytes s.2.bytes))⟩

/-- One signature of a polka certificate; both fields are looked up before either is read. -/
def signatureFromProto (p : Option Bytes × Option Bytes) : Exit ProtoErr (Address × Signature) := do
  let address ← required "validator_address" p.1
  let signature ← required "signature" p.2
  let signature ← Signature.fromProto signature
  let address ← Address.fromProto address
  pure (address, signature)

/-- `decode_polka_certificate` -/
def fromProto (p : ProtoPolkaCertificate) : Exit ProtoErr PolkaCertificate := do
  let valueId ← required "value_id" p.valueId
  let signatures ← decodeAll signatureFromProto p.signatures
  pure ⟨p.height, .some p.round, valueId, signatures⟩

/-- A polka certificate survives its message exactly when its round is not nil. -/
theorem survives_iff {c : PolkaCertificate} : Survives toProto fromProto c ↔ c.round ≠ .nil := by
  obtain ⟨height, round, valueId, signatures⟩ := c
  have hsignatures : decodeAll signatureFromProto (signatures.map fun s =>
      (some (bitVecBytes s.1.bytes), some (bitVecBytes s.2.bytes))) = .ok signatures := by
    refine decodeAll_map fun s _ => ?_
    simp [signatureFromProto, required]
  cases round with
  | nil => simp [Survives, toProto, Round.asU32, Exit.ofOption]
  | some r =>
    simp [Survives, toProto, Round.asU32, Exit.ofOption, fromProto, required, hsignatures]

end PolkaCertificate

/-- `encode_votetype`, as the number on the wire. -/
def VoteType.encode : VoteType → Int
  | prevote => 0
  | precommit => 1

/-- `decode_votetype` of a number: an unknown one is the default, `PREVOTE`. -/
def VoteType.decode (tag : Int) : VoteType := if tag = 1 then precommit else prevote

namespace RoundCertificate

/-- The certificate type, as the number on the wire. -/
def certTypeToProto : RoundCertificateType → Int
  | .precommit => 0
  | .skip => 1

/-- The certificate type of a number; an unknown one is refused. -/
def certTypeFromProto (tag : Int) : Exit ProtoErr RoundCertificateType :=
  if tag = 0 then .ok .precommit else if tag = 1 then .ok .skip else .error (.certType tag)

/-- One signature of `encode_round_certificate`. -/
def signatureToProto (s : RoundSignature) : ProtoRoundSignature :=
  ⟨s.voteType.encode, some (bitVecBytes s.address.bytes), some (bitVecBytes s.signature.bytes),
    s.valueId⟩

/-- One signature of `decode_round_certificate`. -/
def signatureFromProto (p : ProtoRoundSignature) : Exit ProtoErr RoundSignature := do
  let address ← required "validator_address" p.validatorAddress
  let signature ← required "signature" p.signature
  let signature ← Signature.fromProto signature
  let address ← Address.fromProto address
  pure ⟨.decode p.voteType, p.valueId, address, signature⟩

/-- `encode_round_certificate`: a nil round is refused. -/
def toProto (c : RoundCertificate) : Exit ProtoErr ProtoRoundCertificate := do
  let round ← Exit.ofOption .nilRound c.round.asU32
  pure ⟨c.height, round, certTypeToProto c.certType, c.roundSignatures.map signatureToProto⟩

/-- `decode_round_certificate` -/
def fromProto (p : ProtoRoundCertificate) : Exit ProtoErr RoundCertificate := do
  let certType ← certTypeFromProto p.certType
  let signatures ← decodeAll signatureFromProto p.signatures
  pure ⟨p.height, .some p.round, certType, signatures⟩

theorem signatureFromProto_toProto (s : RoundSignature) :
    signatureFromProto (signatureToProto s) = .ok s := by
  obtain ⟨voteType, valueId, address, signature⟩ := s
  cases voteType <;> simp [signatureFromProto, signatureToProto, required, VoteType.encode,
    VoteType.decode]

/-- A round certificate survives its message exactly when its round is not nil. -/
theorem survives_iff {c : RoundCertificate} : Survives toProto fromProto c ↔ c.round ≠ .nil := by
  obtain ⟨height, round, certType, signatures⟩ := c
  have htype : certTypeFromProto (certTypeToProto certType) = .ok certType := by
    cases certType <;> rfl
  have hsignatures : decodeAll signatureFromProto (signatures.map signatureToProto) =
      .ok signatures := decodeAll_map fun s _ => signatureFromProto_toProto s
  cases round with
  | nil => simp [Survives, toProto, Round.asU32, Exit.ofOption]
  | some r =>
    simp [Survives, toProto, Round.asU32, Exit.ofOption, fromProto, htype, hsignatures]

end RoundCertificate

/-! ## Stored rows -/

/-- Consensus metadata survives exactly when its round is within `i32` and not nil: a nil round is
written as `-1`, which is refused when it is read. -/
theorem ConsensusBlockMetadata.survives_iff {m : ConsensusBlockMetadata} :
    Survives toProto fromProto m ↔ m.round ≠ .nil ∧ m.round.asI64 ≤ i32Max := by
  refine ⟨fun ⟨p, henc, hdec⟩ => ?_, fun h => fromProto_toProto h.1 h.2⟩
  unfold toProto at henc
  split at henc
  · rename_i hle
    cases henc
    unfold fromProto at hdec
    obtain ⟨_, hround, _⟩ := Exit.bind_eq_ok.1 hdec
    have hpos : 0 ≤ m.round.asI64 := Exit.ensure_eq_ok.1 hround
    refine ⟨fun hnil => ?_, hle⟩
    rw [hnil] at hpos
    exact absurd hpos (by decide)
  · cases henc

namespace BlobMetadata

/-- The rounds of the records of a row are nil or within `i32`. -/
def WellFormed (m : BlobMetadata) : Prop :=
  ∀ r : ArchiveRecord, some r ∈ m.archivalRecords → r.body.round.asI64 ≤ i32Max

/-- A row is its core, its hashes, its flag and the records of its blobs. -/
theorem eq_of_status {m m' : BlobMetadata} (hcore : m.core = m'.core)
    (hkeccaks : m.blobKeccakHashes = m'.blobKeccakHashes) (hpruned : m.pruned = m'.pruned)
    (hstatus : ∀ i, m.archivalStatus i = m'.archivalStatus i) : m = m' := by
  have hrecords : m.archivalRecords = m'.archivalRecords := by
    have hlength : m.archivalRecords.length = m'.archivalRecords.length := by
      rw [m.records_length, m'.records_length]
      exact blobCount_of_core hcore
    refine List.ext_getElem hlength fun i hi hi' => ?_
    have hi₁ := hstatus i
    unfold archivalStatus at hi₁
    rw [List.getElem?_eq_getElem hi, List.getElem?_eq_getElem hi'] at hi₁
    exact hi₁
  simp only [core, BlobCore.mk.injEq] at hcore
  obtain ⟨h₁, h₂, h₃, h₄, h₅⟩ := hcore
  cases m
  cases m'
  simp only at h₁ h₂ h₃ h₄ h₅ hkeccaks hpruned hrecords
  subst h₁ h₂ h₃ h₄ h₅ hkeccaks hpruned hrecords
  rfl

/-- **A row survives its message exactly when its records do.** -/
theorem survives_iff {m : BlobMetadata} : fromProto m.toProto = .ok m ↔ m.WellFormed := by
  obtain ⟨m', hm', hcore, hkeccaks, hpruned, hstatus⟩ := m.fromProto_toProto
  rw [hm', Exit.ok.injEq]
  constructor
  · rintro rfl r hr
    obtain ⟨i, hi⟩ := List.mem_iff_getElem?.1 hr
    have hfixed := hstatus i
    unfold archivalStatus at hfixed
    simp only [hi, Option.join_some, Option.map_some, Option.some.injEq] at hfixed
    have hbody : ArchiveNoticeBody.fromProto r.body.toProto = r.body :=
      (congrArg ArchiveRecord.body hfixed).symm
    exact ArchiveNoticeBody.fromProto_toProto_iff.1 hbody
  · intro hwf
    refine eq_of_status hcore hkeccaks hpruned fun i => ?_
    rw [hstatus i]
    cases hi : m.archivalStatus i with
    | none => rfl
    | some r =>
      have hmem : some r ∈ m.archivalRecords := by
        unfold archivalStatus at hi
        exact List.mem_of_getElem? (Option.join_eq_some_iff.1 hi)
      have hbody := ArchiveNoticeBody.fromProto_toProto (hwf r hmem)
      unfold ArchiveRecord.transmit
      rw [Option.map_some, hbody]

end BlobMetadata

/-! ## The wire formats -/

/-- Prost: one wire format for each message. -/
structure Wires where
  noticeBody : Wire WireNoticeBody
  archiveNotice : Wire ProtoArchiveNotice
  part : Wire ProtoProposalPart
  stream : Wire ProtoStreamMessage
  package : Wire ProtoSyncedValuePackage
  proposedValue : Wire ProtoProposedValue
  commitCertificate : Wire ProtoCommitCertificate
  polkaCertificate : Wire ProtoPolkaCertificate
  roundCertificate : Wire ProtoRoundCertificate
  blobMetadata : Wire ProtoBlobMetadata
  consensusMetadata : Wire ProtoConsensusBlockMetadata

section Countable

deriving instance Countable for ProtoBeaconBlockHeader
deriving instance Countable for ProtoSignedHeader
deriving instance Countable for ProtoBlobSidecar
deriving instance Countable for ProtoExecutionPayloadHeader
deriving instance Countable for ProtoValueMetadata
deriving instance Countable for ProtoValue
deriving instance Countable for ProtoCommitCertificate
deriving instance Countable for ProtoConsensusBlockMetadata
deriving instance Countable for WireNoticeBody
deriving instance Countable for ProtoArchiveRecord
deriving instance Countable for ProtoBlobMetadata
deriving instance Countable for ProtoArchiveNotice
deriving instance Countable for ProtoPart
deriving instance Countable for ProtoProposalPart
deriving instance Countable for ProtoStreamContent
deriving instance Countable for ProtoStreamMessage
deriving instance Countable for ProtoPackage
deriving instance Countable for ProtoSyncedValuePackage
deriving instance Countable for ProtoProposedValue
deriving instance Countable for ProtoPolkaCertificate
deriving instance Countable for ProtoRoundSignature
deriving instance Countable for ProtoRoundCertificate

end Countable

/-- Wire formats for all messages exist. -/
noncomputable def Wires.ofCountable : Wires where
  noticeBody := .ofCountable _
  archiveNotice := .ofCountable _
  part := .ofCountable _
  stream := .ofCountable _
  package := .ofCountable _
  proposedValue := .ofCountable _
  commitCertificate := .ofCountable _
  polkaCertificate := .ofCountable _
  roundCertificate := .ofCountable _
  blobMetadata := .ofCountable _
  consensusMetadata := .ofCountable _

end Ultramarine
