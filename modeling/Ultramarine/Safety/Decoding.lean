import Ultramarine.App.Run
import Ultramarine.Types.Messages

/-!
# Decoding what the network sends

A decoder copies hash and root fields with `B256::from_slice`, which panics on a length other than 32.
Each message has two predicates on its fields, in the order the decoder reads them: `Accepted`, the
messages that decode, and `Breaks`, those on which the decoder panics.

* `decoders_calm_iff`: a decoder panics exactly on the messages that break it;
* `round_trips_iff`: a value survives encoding and decoding exactly when it is well formed;
* `signed_notice_survives_iff`: a signed notice still verifies, with its body unchanged, exactly when
  its round is nil or within `i32`.
-/

namespace Ultramarine

open Lib Ssz

variable {bytes : Bytes} {w n : Nat} {α β : Type} {m : BlobMetadata} {p : ProtoBlobSidecar}
  {r : ArchiveRecord} {b : WireNoticeBody} {h : ProtoSignedHeader}

/-! ## Fields -/

section Fields

variable {name : String}

theorem exists_bind_eq_ok {ε : Type} {x : Exit ε α} {f : α → Exit ε β} :
    (∃ b, (x >>= f) = .ok b) ↔ ∃ a, x = .ok a ∧ ∃ b, f a = .ok b := by
  cases x <;> simp

theorem ofSlice_eq_none : ofSlice w bytes = none ↔ bytes.length ≠ w / 8 := by
  unfold ofSlice
  split <;> simp [*]

theorem exists_ofSlice : (∃ v, ofSlice w bytes = some v) ↔ bytes.length = w / 8 := by
  rw [← Option.isSome_iff_exists, ← Option.ne_none_iff_isSome, ne_eq, ofSlice_eq_none, not_not]

@[simp] theorem b256FromSlice_eq_panic : b256FromSlice bytes = .panic ↔ bytes.length ≠ 32 := by
  rw [show 32 = 256 / 8 from rfl, ← ofSlice_eq_none]
  unfold b256FromSlice
  cases ofSlice 256 bytes <;> simp

@[simp] theorem exists_b256FromSlice : (∃ v, b256FromSlice bytes = .ok v) ↔ bytes.length = 32 := by
  rw [show 32 = 256 / 8 from rfl, ← exists_ofSlice]
  unfold b256FromSlice
  cases ofSlice 256 bytes <;> simp

@[simp] theorem arrayFromSlice_ne_panic : arrayFromSlice name w bytes ≠ .panic := by
  unfold arrayFromSlice
  cases ofSlice w bytes <;> simp

@[simp] theorem exists_arrayFromSlice {w : Nat} {bytes : Bytes} :
    (∃ v, arrayFromSlice name w bytes = .ok v) ↔ bytes.length = w / 8 := by
  rw [← exists_ofSlice]
  unfold arrayFromSlice
  cases ofSlice w bytes <;> simp

theorem wrapped_ne_panic {mk : BitVec w → α} :
    (arrayFromSlice name w bytes >>= fun v => (pure (mk v) : Exit ProtoErr α)) ≠ .panic := by
  simp [Exit.bind_eq_panic]

theorem exists_wrapped {mk : BitVec w → α} :
    (∃ a, (arrayFromSlice name w bytes >>= fun v => (pure (mk v) : Exit ProtoErr α)) = .ok a) ↔
      bytes.length = w / 8 := by
  rw [exists_bind_eq_ok, ← @exists_arrayFromSlice name]
  simp

@[simp] theorem KzgCommitment.fromSlice_ne_panic : fromSlice bytes ≠ .panic :=
  wrapped_ne_panic

@[simp] theorem KzgCommitment.exists_fromSlice :
    (∃ c, fromSlice bytes = .ok c) ↔ bytes.length = 48 := exists_wrapped

@[simp] theorem KzgProof.fromSlice_ne_panic : fromSlice bytes ≠ .panic :=
  wrapped_ne_panic

@[simp] theorem KzgProof.exists_fromSlice :
    (∃ c, fromSlice bytes = .ok c) ↔ bytes.length = 48 := exists_wrapped

@[simp] theorem Signature.fromProto_ne_panic : fromProto bytes ≠ .panic :=
  wrapped_ne_panic

@[simp] theorem Signature.exists_fromProto :
    (∃ s, fromProto bytes = .ok s) ↔ bytes.length = 64 := exists_wrapped

@[simp] theorem Address.fromProto_ne_panic : fromProto bytes ≠ .panic :=
  wrapped_ne_panic

@[simp] theorem Address.exists_fromProto :
    (∃ a, fromProto bytes = .ok a) ↔ bytes.length = 20 := exists_wrapped

@[simp] theorem Blob.fromBytes_ne_panic : fromBytes bytes ≠ .panic := by
  unfold fromBytes
  split <;> simp

@[simp] theorem Blob.exists_fromBytes :
    (∃ b, fromBytes bytes = .ok b) ↔ bytes.length = bytesPerBlob := by
  unfold fromBytes
  split <;> simp [*]

@[simp] theorem u16TryFrom_ne_panic : u16TryFrom name n ≠ .panic := by
  unfold u16TryFrom
  split <;> simp

@[simp] theorem exists_u16TryFrom : (∃ m, u16TryFrom name n = .ok m) ↔ n ≤ u16Max := by
  simp [u16TryFrom_eq_ok]

@[simp] theorem required_ne_panic {x : Option α} : required name x ≠ .panic := by
  cases x <;> simp [required]

end Fields

/-! ## Lists -/

/-- The first element of a list that is not accepted breaks the decoder. -/
def BreaksAt {α : Type} (accepted breaks : α → Prop) (l : List α) : Prop :=
  ∃ before a after, l = before ++ a :: after ∧ (∀ b ∈ before, accepted b) ∧ breaks a

theorem breaksAt_cons {accepted breaks : α → Prop} {a : α} {l : List α} :
    BreaksAt accepted breaks (a :: l) ↔
      breaks a ∨ accepted a ∧ BreaksAt accepted breaks l := by
  constructor
  · rintro ⟨before, b, after, hl, hbefore, hb⟩
    cases before with
    | nil =>
      cases hl
      exact .inl hb
    | cons c before =>
      cases hl
      exact .inr ⟨hbefore a (by simp), before, b, after, rfl, fun d hd => hbefore d (by simp [hd]), hb⟩
  · rintro (ha | ⟨ha, before, b, after, rfl, hbefore, hb⟩)
    · exact ⟨[], a, l, rfl, by simp, ha⟩
    · refine ⟨a :: before, b, after, rfl, ?_, hb⟩
      simpa [ha] using hbefore

theorem not_breaksAt_nil {accepted breaks : α → Prop} : ¬ BreaksAt accepted breaks [] := by
  rintro ⟨before, a, after, hl, _⟩
  cases before <;> cases hl

section Lists

variable {α β : Type} {f : α → Exit ProtoErr β}

theorem exists_decodeAll : ∀ {l : List α},
    (∃ bs, decodeAll f l = .ok bs) ↔ ∀ a ∈ l, ∃ b, f a = .ok b
  | [] => by simp [decodeAll]
  | a :: l => by
    simp only [decodeAll, exists_bind_eq_ok, exists_decodeAll, List.mem_cons, forall_eq_or_imp,
      Exit.pure_eq_ok, Exit.ok.injEq, exists_eq', and_true, exists_and_right]

theorem decodeAll_eq_panic : ∀ {l : List α},
    decodeAll f l = .panic ↔ BreaksAt (fun a => ∃ b, f a = .ok b) (fun a => f a = .panic) l
  | [] => by simp [decodeAll, not_breaksAt_nil]
  | a :: l => by
    simp only [decodeAll, Exit.bind_eq_panic, decodeAll_eq_panic, breaksAt_cons, Exit.pure_eq_ok,
      reduceCtorEq, and_false, exists_false, or_false, exists_and_right]

/-- A decoder that refuses nothing panics on a list exactly when it does on an element. -/
theorem decodeAll_b256_eq_panic : ∀ {l : List Bytes},
    decodeAll b256FromSlice l = .panic ↔ ∃ b ∈ l, b.length ≠ 32
  | [] => by simp [decodeAll]
  | b :: l => by
    simp only [decodeAll, Exit.bind_eq_panic, decodeAll_b256_eq_panic, b256FromSlice_eq_panic,
      Exit.pure_eq_ok, reduceCtorEq, and_false, exists_false, or_false, exists_and_right,
      exists_b256FromSlice, List.mem_cons, exists_eq_or_imp]
    by_cases hb : b.length = 32 <;> simp [hb]

end Lists

/-! ## Sidecars and notices -/

/-- The roots of a header are 32 bytes long. -/
def ProtoBeaconBlockHeader.RootsFit (m : ProtoBeaconBlockHeader) : Prop :=
  m.parentRoot.length = 32 ∧ m.stateRoot.length = 32 ∧ m.bodyRoot.length = 32

/-- A signed header that decodes. -/
def ProtoSignedHeader.Accepted (h : ProtoSignedHeader) : Prop :=
  ∃ m, h.message = some m ∧ m.RootsFit ∧ ∃ s, h.signature = some s ∧ s.length = 64

/-- A signed header that breaks the decoder: its roots are read before its signature. -/
def ProtoSignedHeader.Breaks (h : ProtoSignedHeader) : Prop :=
  ∃ m, h.message = some m ∧ ¬ m.RootsFit

/-- A sidecar that decodes. -/
def ProtoBlobSidecar.Accepted (p : ProtoBlobSidecar) : Prop :=
  p.blob.length = bytesPerBlob ∧ p.kzgCommitment.length = 48 ∧ p.kzgProof.length = 48 ∧
    ∃ h, p.signedBlockHeader = some h ∧ h.Accepted ∧
      (∀ b ∈ p.kzgCommitmentInclusionProof, b.length = 32) ∧ p.index ≤ u16Max

/-- A sidecar that breaks the decoder: by a root of its header, or by a branch of its proof. -/
def ProtoBlobSidecar.Breaks (p : ProtoBlobSidecar) : Prop :=
  p.blob.length = bytesPerBlob ∧ p.kzgCommitment.length = 48 ∧ p.kzgProof.length = 48 ∧
    ∃ h, p.signedBlockHeader = some h ∧
      (h.Breaks ∨ h.Accepted ∧ ∃ b ∈ p.kzgCommitmentInclusionProof, b.length ≠ 32)

namespace BlobSidecar

theorem exists_headerFromProto : (∃ s, headerFromProto h = .ok s) ↔ h.Accepted := by
  simp only [headerFromProto, exists_bind_eq_ok, required_eq_ok, Exit.pure_eq_ok, Exit.ok.injEq,
    exists_eq', and_true, exists_and_right, exists_b256FromSlice, Signature.exists_fromProto,
    ProtoSignedHeader.Accepted, ProtoBeaconBlockHeader.RootsFit, and_assoc]

theorem headerFromProto_eq_panic : headerFromProto h = .panic ↔ h.Breaks := by
  simp only [headerFromProto, Exit.bind_eq_panic, required_ne_panic, required_eq_ok, false_or,
    b256FromSlice_eq_panic, Signature.fromProto_ne_panic, Exit.pure_eq_ok, reduceCtorEq, and_false,
    exists_false, or_false, exists_and_right, exists_b256FromSlice, ProtoSignedHeader.Breaks,
    ProtoBeaconBlockHeader.RootsFit]
  refine exists_congr fun m => and_congr_right fun _ => ?_
  by_cases hparent : m.parentRoot.length = 32 <;> by_cases hstate : m.stateRoot.length = 32 <;>
    simp [hparent, hstate]

theorem exists_fromProto : (∃ s, fromProto p = .ok s) ↔ p.Accepted := by
  simp only [fromProto, exists_bind_eq_ok, required_eq_ok, Exit.pure_eq_ok, Exit.ok.injEq,
    exists_eq', and_true, exists_and_right, Blob.exists_fromBytes, KzgCommitment.exists_fromSlice,
    KzgProof.exists_fromSlice, exists_headerFromProto, exists_decodeAll, exists_b256FromSlice,
    exists_u16TryFrom, ProtoBlobSidecar.Accepted]

theorem fromProto_eq_panic : fromProto p = .panic ↔ p.Breaks := by
  simp only [fromProto, Exit.bind_eq_panic, Blob.fromBytes_ne_panic, KzgCommitment.fromSlice_ne_panic,
    KzgProof.fromSlice_ne_panic, required_ne_panic, required_eq_ok, u16TryFrom_ne_panic, false_or,
    Exit.pure_eq_ok, reduceCtorEq, and_false, exists_false, or_false, exists_and_right,
    Blob.exists_fromBytes, KzgCommitment.exists_fromSlice, KzgProof.exists_fromSlice,
    headerFromProto_eq_panic, exists_headerFromProto, decodeAll_b256_eq_panic,
    ProtoBlobSidecar.Breaks]

end BlobSidecar

/-- A notice body that decodes. -/
def WireNoticeBody.Accepted (b : WireNoticeBody) : Prop :=
  b.blobIndex ≤ u16Max ∧ b.kzgCommitment.length = 48 ∧ b.blobKeccak.length = 32 ∧
    ∃ a, b.archivedBy = some a ∧ a.length = 20

/-- A notice body that breaks the decoder. -/
def WireNoticeBody.Breaks (b : WireNoticeBody) : Prop :=
  b.blobIndex ≤ u16Max ∧ b.kzgCommitment.length = 48 ∧ b.blobKeccak.length ≠ 32

namespace ArchiveNoticeBody

theorem exists_fromWire : (∃ r, fromWire b = .ok r) ↔ b.Accepted := by
  simp only [fromWire, exists_bind_eq_ok, required_eq_ok, Exit.pure_eq_ok, Exit.ok.injEq,
    exists_eq', and_true, exists_and_right, exists_u16TryFrom, KzgCommitment.exists_fromSlice,
    exists_b256FromSlice, Address.exists_fromProto, WireNoticeBody.Accepted]

theorem fromWire_eq_panic : fromWire b = .panic ↔ b.Breaks := by
  simp only [fromWire, Exit.bind_eq_panic, u16TryFrom_ne_panic, KzgCommitment.fromSlice_ne_panic,
    b256FromSlice_eq_panic, required_ne_panic, Address.fromProto_ne_panic, false_or, Exit.pure_eq_ok,
    reduceCtorEq, and_false, exists_false, or_false, exists_and_right, exists_u16TryFrom,
    KzgCommitment.exists_fromSlice, WireNoticeBody.Breaks]

end ArchiveNoticeBody

/-- A signed body that decodes. -/
def SignedBodyAccepted (body : Option WireNoticeBody) (signature : Option Bytes) : Prop :=
  ∃ b, body = some b ∧ b.Accepted ∧ ∃ s, signature = some s ∧ s.length = 64

theorem exists_signedBodyFromProto {name : String} {body : Option WireNoticeBody}
    {signature : Option Bytes} :
    (∃ r, signedBodyFromProto name body signature = .ok r) ↔ SignedBodyAccepted body signature := by
  simp only [signedBodyFromProto, exists_bind_eq_ok, required_eq_ok, Exit.pure_eq_ok,
    Exit.ok.injEq, exists_eq', and_true, exists_and_right, ArchiveNoticeBody.exists_fromWire,
    Signature.exists_fromProto, SignedBodyAccepted]

theorem signedBodyFromProto_eq_panic {name : String} {body : Option WireNoticeBody}
    {signature : Option Bytes} :
    signedBodyFromProto name body signature = .panic ↔ ∃ b, body = some b ∧ b.Breaks := by
  simp only [signedBodyFromProto, Exit.bind_eq_panic, required_ne_panic, required_eq_ok, false_or,
    ArchiveNoticeBody.fromWire_eq_panic, Signature.fromProto_ne_panic, Exit.pure_eq_ok, reduceCtorEq,
    and_false, exists_false, or_false]

/-- A notice that decodes. -/
def ProtoArchiveNotice.Accepted (p : ProtoArchiveNotice) : Prop :=
  SignedBodyAccepted p.body p.signature

/-- A notice that breaks the decoder. -/
def ProtoArchiveNotice.Breaks (p : ProtoArchiveNotice) : Prop := ∃ b, p.body = some b ∧ b.Breaks

namespace ArchiveNotice

theorem exists_fromProto {p : ProtoArchiveNotice} : (∃ n, fromProto p = .ok n) ↔ p.Accepted := by
  simp only [fromProto, exists_bind_eq_ok, Exit.pure_eq_ok, Exit.ok.injEq, exists_eq', and_true,
    exists_signedBodyFromProto, ProtoArchiveNotice.Accepted]

theorem fromProto_eq_panic {p : ProtoArchiveNotice} : fromProto p = .panic ↔ p.Breaks := by
  simp only [fromProto, Exit.bind_eq_panic, signedBodyFromProto_eq_panic, Exit.pure_eq_ok,
    reduceCtorEq, and_false, exists_false, or_false, ProtoArchiveNotice.Breaks]

end ArchiveNotice

/-! ## Values -/

/-- A field that may be absent, of `n` bytes where it is there. -/
def AbsentOr (n : Nat) (bytes : Bytes) : Prop := bytes = [] ∨ bytes.length = n

/-- A header that decodes. -/
def ProtoExecutionPayloadHeader.Accepted (h : ProtoExecutionPayloadHeader) : Prop :=
  AbsentOr 32 h.blockHash ∧ AbsentOr 32 h.parentHash ∧ AbsentOr 32 h.stateRoot ∧
    AbsentOr 32 h.receiptsRoot ∧ AbsentOr 256 h.logsBloom ∧ h.baseFeePerGas.length ≤ 32 ∧
    AbsentOr 32 h.transactionsRoot ∧ AbsentOr 32 h.withdrawalsRoot ∧ AbsentOr 32 h.prevRandao ∧
    h.feeRecipient.length = 20 ∧ AbsentOr 32 h.requestsHash

/-- A value that decodes. -/
def ProtoValue.Accepted (p : ProtoValue) : Prop :=
  ∀ m, p.metadata = some m → ∃ h, m.executionPayloadHeader = some h ∧ h.Accepted ∧
    (∀ c ∈ m.blobKzgCommitments, c.length = 48) ∧ m.blobCount ≤ u16Max

section Values

variable {name : String}

@[simp] theorem arrayOrZero_ne_panic : arrayOrZero name w bytes ≠ .panic := by
  unfold arrayOrZero
  split <;> simp

@[simp] theorem exists_arrayOrZero :
    (∃ v, arrayOrZero name w bytes = .ok v) ↔ AbsentOr (w / 8) bytes := by
  unfold arrayOrZero AbsentOr
  split <;> simp [*]

@[simp] theorem u256FromBytes_ne_panic : u256FromBytes bytes ≠ .panic := by
  unfold u256FromBytes
  split <;> simp

@[simp] theorem exists_u256FromBytes : (∃ v, u256FromBytes bytes = .ok v) ↔ bytes.length ≤ 32 := by
  unfold u256FromBytes
  split <;> simp [*]

namespace ExecutionPayloadHeader

@[simp] theorem requestsHashFromProto_ne_panic : requestsHashFromProto bytes ≠ .panic := by
  unfold requestsHashFromProto
  split <;> simp [Exit.bind_eq_panic]

@[simp] theorem exists_requestsHashFromProto :
    (∃ v, requestsHashFromProto bytes = .ok v) ↔ AbsentOr 32 bytes := by
  unfold requestsHashFromProto
  split
  · simp [AbsentOr, *]
  · simp only [exists_bind_eq_ok, Exit.pure_eq_ok, Exit.ok.injEq, exists_eq', and_true,
      exists_arrayOrZero, Nat.reduceDiv]

@[simp] theorem fromProto_ne_panic {p : ProtoExecutionPayloadHeader} : fromProto p ≠ .panic := by
  simp only [fromProto, ne_eq, Exit.bind_eq_panic, arrayOrZero_ne_panic, u256FromBytes_ne_panic,
    Address.fromProto_ne_panic, requestsHashFromProto_ne_panic, Exit.pure_eq_ok, reduceCtorEq,
    and_false, exists_false, or_false, not_false_eq_true]

theorem exists_fromProto {p : ProtoExecutionPayloadHeader} :
    (∃ h, fromProto p = .ok h) ↔ p.Accepted := by
  simp only [fromProto, exists_bind_eq_ok, Exit.pure_eq_ok, Exit.ok.injEq, exists_eq', and_true,
    exists_and_right, exists_arrayOrZero, exists_u256FromBytes, Address.exists_fromProto,
    exists_requestsHashFromProto, ProtoExecutionPayloadHeader.Accepted, Nat.reduceDiv]

end ExecutionPayloadHeader

namespace Value

theorem metadataFromProto_ne_panic {m : ProtoValueMetadata} :
    ValueMetadata.fromProto m ≠ .panic := by
  have hcommitments : decodeAll KzgCommitment.fromSlice m.blobKzgCommitments ≠ .panic := by
    rw [ne_eq, decodeAll_eq_panic]
    rintro ⟨_, _, _, _, _, h⟩
    exact KzgCommitment.fromSlice_ne_panic h
  simp only [ValueMetadata.fromProto, ne_eq, Exit.bind_eq_panic, required_ne_panic,
    ExecutionPayloadHeader.fromProto_ne_panic, hcommitments, u16TryFrom_ne_panic, Exit.pure_eq_ok,
    reduceCtorEq, and_false, exists_false, or_false, not_false_eq_true]

theorem fromProto_ne_panic {p : ProtoValue} : fromProto p ≠ .panic := by
  unfold fromProto
  cases p.metadata with
  | none => simp
  | some m => simp [Exit.bind_eq_panic, metadataFromProto_ne_panic]

theorem exists_fromProto {p : ProtoValue} : (∃ v, fromProto p = .ok v) ↔ p.Accepted := by
  unfold fromProto ProtoValue.Accepted
  cases p.metadata with
  | none => simp
  | some m =>
    simp only [exists_bind_eq_ok, Exit.pure_eq_ok, Exit.ok.injEq, exists_eq', and_true,
      ValueMetadata.fromProto, required_eq_ok, exists_and_right,
      ExecutionPayloadHeader.exists_fromProto, exists_decodeAll, KzgCommitment.exists_fromSlice,
      exists_u16TryFrom, Option.some.injEq, forall_eq']

end Value

end Values

/-! ## Packages, parts and streams -/

/-- A package that breaks the decoder: by its sidecars, or by its notices. -/
def ProtoPackage.Breaks : ProtoPackage → Prop
  | .full value _ sidecars _ notices => ∃ v, value = some v ∧ v.Accepted ∧
      (BreaksAt ProtoBlobSidecar.Accepted ProtoBlobSidecar.Breaks sidecars ∨
        (∀ s ∈ sidecars, s.Accepted) ∧
          BreaksAt ProtoArchiveNotice.Accepted ProtoArchiveNotice.Breaks notices)
  | .metadataOnly value notices _ _ => ∃ v, value = some v ∧ v.Accepted ∧
      BreaksAt ProtoArchiveNotice.Accepted ProtoArchiveNotice.Breaks notices

/-- A package message that breaks the decoder. -/
def ProtoSyncedValuePackage.Breaks (p : ProtoSyncedValuePackage) : Prop :=
  ∃ package, p.package = some package ∧ package.Breaks

namespace SyncedValuePackage

theorem packageFromProto_eq_panic {p : ProtoPackage} : packageFromProto p = .panic ↔ p.Breaks := by
  cases p with
  | full value payload sidecars requests notices =>
    simp only [packageFromProto, Exit.bind_eq_panic, required_ne_panic, required_eq_ok, false_or,
      Value.fromProto_ne_panic, decodeAll_eq_panic, Exit.pure_eq_ok, reduceCtorEq, and_false,
      exists_false, or_false, exists_and_right, Value.exists_fromProto, exists_decodeAll,
      BlobSidecar.exists_fromProto, BlobSidecar.fromProto_eq_panic, ArchiveNotice.exists_fromProto,
      ArchiveNotice.fromProto_eq_panic, ProtoPackage.Breaks]
  | metadataOnly value notices payload requests =>
    simp only [packageFromProto, Exit.bind_eq_panic, required_ne_panic, required_eq_ok, false_or,
      Value.fromProto_ne_panic, decodeAll_eq_panic, Exit.pure_eq_ok, reduceCtorEq, and_false,
      exists_false, or_false, exists_and_right, Value.exists_fromProto,
      ArchiveNotice.exists_fromProto, ArchiveNotice.fromProto_eq_panic, ProtoPackage.Breaks]

theorem fromProto_eq_panic {p : ProtoSyncedValuePackage} : fromProto p = .panic ↔ p.Breaks := by
  simp only [fromProto, Exit.bind_eq_panic, required_ne_panic, required_eq_ok, false_or,
    packageFromProto_eq_panic, ProtoSyncedValuePackage.Breaks]

end SyncedValuePackage

/-- A part that breaks the decoder. -/
def ProtoPart.Breaks : ProtoPart → Prop
  | .blobSidecar p => p.Breaks
  | .archiveNotice p => p.Breaks
  | .init _ _ _ => False
  | .data _ _ => False
  | .fin _ => False

/-- A part message that breaks the decoder. -/
def ProtoProposalPart.Breaks (p : ProtoProposalPart) : Prop := ∃ part, p.part = some part ∧ part.Breaks

/-- A stream message that breaks the decoder: by the part nested in it. -/
def ProtoStreamMessage.Breaks (w : Wire ProtoProposalPart) (p : ProtoStreamMessage) : Prop :=
  ∃ bytes, p.content = some (.data bytes) ∧ ∃ part, w.decode bytes = some part ∧ part.Breaks

namespace ProposalPart

/-- The two copies of the sidecar conversion panic on the same messages. -/
theorem sidecarFromProto_eq_panic :
    sidecarFromProto p = .panic ↔ BlobSidecar.fromProto p = .panic := by
  simp only [sidecarFromProto, BlobSidecar.fromProto, Exit.bind_eq_panic, u16TryFrom_ne_panic,
    u16TryFrom_eq_ok]

theorem partFromProto_eq_panic {p : ProtoPart} : partFromProto p = .panic ↔ p.Breaks := by
  cases p with
  | init height round proposer =>
    simp [partFromProto, Exit.bind_eq_panic, ProtoPart.Breaks]
  | data bytes requests => simp [partFromProto, ProtoPart.Breaks]
  | blobSidecar p =>
    simp only [partFromProto, Exit.bind_eq_panic, sidecarFromProto_eq_panic,
      BlobSidecar.fromProto_eq_panic, Exit.pure_eq_ok, reduceCtorEq, and_false, exists_false,
      or_false, ProtoPart.Breaks]
  | archiveNotice p =>
    simp only [partFromProto, Exit.bind_eq_panic, ArchiveNotice.fromProto_eq_panic,
      Exit.pure_eq_ok, reduceCtorEq, and_false, exists_false, or_false, ProtoPart.Breaks]
  | fin signature => simp [partFromProto, Exit.bind_eq_panic, ProtoPart.Breaks]

theorem fromProto_eq_panic {p : ProtoProposalPart} : fromProto p = .panic ↔ p.Breaks := by
  simp only [fromProto, Exit.bind_eq_panic, required_ne_panic, required_eq_ok, false_or,
    partFromProto_eq_panic, ProtoProposalPart.Breaks]

end ProposalPart

theorem StreamMessage.fromProto_eq_panic {w : Wire ProtoProposalPart} {p : ProtoStreamMessage} :
    fromProto w p = .panic ↔ p.Breaks w := by
  have hcontent : ∀ c, contentFromProto w c = .panic ↔
      ∃ bytes, c = .data bytes ∧ ∃ part, w.decode bytes = some part ∧ part.Breaks := by
    intro c
    cases c with
    | data bytes =>
      simp only [contentFromProto, Exit.bind_eq_panic, Wire.fromBytes_eq_panic,
        ProposalPart.fromProto_eq_panic, Exit.pure_eq_ok, reduceCtorEq, and_false, exists_false,
        or_false, ProtoStreamContent.data.injEq, exists_eq_left']
    | fin b => simp [contentFromProto]
  simp only [fromProto, Exit.bind_eq_panic, required_ne_panic, required_eq_ok, false_or, hcontent,
    Exit.pure_eq_ok, reduceCtorEq, and_false, exists_false, or_false, ProtoStreamMessage.Breaks]
  constructor
  · rintro ⟨c, hc, bytes, rfl, h⟩
    exact ⟨bytes, hc, h⟩
  · rintro ⟨bytes, hc, h⟩
    exact ⟨.data bytes, hc, bytes, rfl, h⟩

/-! ## Stored blob metadata -/

/-- A record that decodes, and has its place among `n` blobs. -/
def ProtoArchiveRecord.Placed (n : Nat) (p : ProtoArchiveRecord) : Prop :=
  SignedBodyAccepted p.body p.archiveSignature ∧ ∀ b, p.body = some b → b.blobIndex < n

/-- A record that breaks the decoder. -/
def ProtoArchiveRecord.Breaks (p : ProtoArchiveRecord) : Prop := ∃ b, p.body = some b ∧ b.Breaks

/-- A stored row that breaks the decoder: by a hash, by a record, or by the root, read last. -/
def ProtoBlobMetadata.Breaks (p : ProtoBlobMetadata) : Prop :=
  (∀ c ∈ p.kzgCommitments, c.length = 48) ∧
    ((∃ k ∈ p.blobKeccak, k.length ≠ 32) ∨
      (∀ k ∈ p.blobKeccak, k.length = 32) ∧ p.blobKeccak.length = p.kzgCommitments.length ∧
        p.blobCount = p.kzgCommitments.length ∧ p.blobCount ≤ u16Max ∧
        (BreaksAt (·.Placed p.blobCount) ProtoArchiveRecord.Breaks p.archivalRecords ∨
          (∀ r ∈ p.archivalRecords, r.Placed p.blobCount) ∧
            ∃ h, p.executionPayloadHeader = some h ∧ h.Accepted ∧ p.parentBlobRoot.length ≠ 32))

namespace ArchiveRecord

theorem fromProto_eq_panic {p : ProtoArchiveRecord} : fromProto p = .panic ↔ p.Breaks := by
  simp only [fromProto, Exit.bind_eq_panic, signedBodyFromProto_eq_panic, Exit.pure_eq_ok,
    reduceCtorEq, and_false, exists_false, or_false, ProtoArchiveRecord.Breaks]

/-- A record that decodes is placed exactly when its index is below the bound. -/
theorem placed_of_fromProto {p : ProtoArchiveRecord} (h : fromProto p = .ok r) :
    p.Placed n ↔ r.body.blobIndex < n := by
  obtain ⟨⟨b, s⟩, hsigned, hr⟩ := Exit.bind_eq_ok.1 h
  cases hr
  have haccepted : SignedBodyAccepted p.body p.archiveSignature :=
    exists_signedBodyFromProto.1 ⟨_, hsigned⟩
  unfold signedBodyFromProto at hsigned
  simp only [Exit.bind_eq_ok, required_eq_ok] at hsigned
  obtain ⟨body, hbody, b', hb', _, _, _, _, heq⟩ := hsigned
  cases heq
  unfold ArchiveNoticeBody.fromWire at hb'
  simp only [Exit.bind_eq_ok, u16TryFrom_eq_ok] at hb'
  obtain ⟨_, ⟨_, rfl⟩, _, _, _, _, _, _, _, _, heq⟩ := hb'
  cases heq
  rw [hbody] at haccepted
  simp only [ProtoArchiveRecord.Placed, hbody, haccepted, true_and, Option.some.injEq, forall_eq']
  rfl

theorem not_placed_of_error {p : ProtoArchiveRecord} (h : ∀ r, fromProto p ≠ .ok r) :
    ¬ p.Placed n := by
  rintro ⟨haccepted, _⟩
  obtain ⟨r, hr⟩ := (@exists_signedBodyFromProto "archive_signature" _ _).2 haccepted
  refine h ⟨r.1, r.2⟩ ?_
  unfold fromProto
  rw [hr]
  rfl

end ArchiveRecord

namespace BlobMetadata

theorem count_setArchiveRecord? {m' : BlobMetadata} (h : m.setArchiveRecord? r = some m') :
    m'.blobCount = m.blobCount :=
  blobCount_of_core (core_setArchiveRecord? h)

theorem setArchiveRecord?_isSome :
    (∃ m', m.setArchiveRecord? r = some m') ↔ r.body.blobIndex < m.blobCount := by
  unfold setArchiveRecord? blobCount
  rw [m.records_length]
  split <;> simp [*]

/-- Reading the records panics exactly when the first one without a place breaks the decoder, and
succeeds exactly when all of them have a place. -/
theorem setRecords_cases : ∀ {records : List ProtoArchiveRecord} {m : BlobMetadata},
    (setRecords m records = .panic ↔
      BreaksAt (·.Placed m.blobCount) ProtoArchiveRecord.Breaks records) ∧
    ((∃ m', setRecords m records = .ok m') ↔ ∀ r ∈ records, r.Placed m.blobCount)
  | [], m => by simp [setRecords, not_breaksAt_nil]
  | p :: records, m => by
    rw [breaksAt_cons, List.forall_mem_cons, ← ArchiveRecord.fromProto_eq_panic]
    unfold setRecords
    cases hp : ArchiveRecord.fromProto p with
    | panic =>
      have hnot : ¬ p.Placed m.blobCount :=
        ArchiveRecord.not_placed_of_error fun r hr => by
          rw [hp] at hr
          cases hr
      simp [hnot]
    | error e =>
      have hnot : ¬ p.Placed m.blobCount :=
        ArchiveRecord.not_placed_of_error fun r hr => by
          rw [hp] at hr
          cases hr
      simp [hnot]
    | ok r =>
      have hplaced : p.Placed m.blobCount ↔ r.body.blobIndex < m.blobCount :=
        ArchiveRecord.placed_of_fromProto hp
      rw [Exit.ok_bind, hplaced]
      cases hset : m.setArchiveRecord? r with
      | none =>
        have hnot : ¬ r.body.blobIndex < m.blobCount := by
          rw [← setArchiveRecord?_isSome, hset]
          simp
        simp [hnot]
      | some m' =>
        have hlt : r.body.blobIndex < m.blobCount := setArchiveRecord?_isSome.1 ⟨m', hset⟩
        have hcount := count_setArchiveRecord? hset
        obtain ⟨hpanic, hok⟩ := @setRecords_cases records m'
        rw [hcount] at hpanic hok
        simp [hlt, hpanic, hok]

theorem length_decodeAll {f : α → Exit ProtoErr β} :
    ∀ {l : List α} {bs : List β}, decodeAll f l = .ok bs → bs.length = l.length
  | [], bs, h => by
    cases h
    rfl
  | a :: l, bs, h => by
    simp only [decodeAll, Exit.bind_eq_ok, Exit.pure_eq_ok, Exit.ok.injEq] at h
    obtain ⟨_, _, bs', hbs', rfl⟩ := h
    rw [List.length_cons, List.length_cons, length_decodeAll hbs']

/-- What is read of a row after its commitments and its hashes. -/
theorem tail_eq_panic {p : ProtoBlobMetadata} (hn : m.blobCount = n) :
    (setRecords m p.archivalRecords >>= fun row =>
      required "execution_payload_header" p.executionPayloadHeader >>= fun header =>
      ExecutionPayloadHeader.fromProto header >>= fun header =>
      b256FromSlice p.parentBlobRoot >>= fun parentBlobRoot =>
      pure { row with executionPayloadHeader := header, parentBlobRoot }) = Exit.panic ↔
    BreaksAt (·.Placed n) ProtoArchiveRecord.Breaks p.archivalRecords ∨
      (∀ r ∈ p.archivalRecords, r.Placed n) ∧
        ∃ h, p.executionPayloadHeader = some h ∧ h.Accepted ∧ p.parentBlobRoot.length ≠ 32 := by
  subst hn
  simp only [Exit.bind_eq_panic, setRecords_cases.1, required_ne_panic, required_eq_ok, false_or,
    ExecutionPayloadHeader.fromProto_ne_panic, b256FromSlice_eq_panic, Exit.pure_eq_ok, reduceCtorEq,
    and_false, exists_false, or_false, exists_and_right, setRecords_cases.2,
    ExecutionPayloadHeader.exists_fromProto]

/-- **Reading a stored row panics exactly on the messages that break it.** -/
theorem fromProto_eq_panic {p : ProtoBlobMetadata} : fromProto p = .panic ↔ p.Breaks := by
  have hlengths : (∃ cs, decodeAll KzgCommitment.fromSlice p.kzgCommitments = .ok cs) ↔
      ∀ c ∈ p.kzgCommitments, c.length = 48 := by
    simp only [exists_decodeAll, KzgCommitment.exists_fromSlice]
  unfold fromProto ProtoBlobMetadata.Breaks
  cases hc : decodeAll KzgCommitment.fromSlice p.kzgCommitments with
  | panic =>
    obtain ⟨_, _, _, _, _, h⟩ := decodeAll_eq_panic.1 hc
    exact absurd h KzgCommitment.fromSlice_ne_panic
  | error e =>
    rw [← hlengths, hc]
    simp
  | ok cs =>
    have hcs : cs.length = p.kzgCommitments.length := length_decodeAll hc
    have h48 : ∀ c ∈ p.kzgCommitments, c.length = 48 := hlengths.1 ⟨cs, hc⟩
    rw [Exit.ok_bind, Exit.bind_eq_panic, decodeAll_b256_eq_panic, and_iff_right h48]
    refine or_congr Iff.rfl ?_
    have hkeccaks : (∃ ks, decodeAll b256FromSlice p.blobKeccak = .ok ks) ↔
        ∀ k ∈ p.blobKeccak, k.length = 32 := by
      simp only [exists_decodeAll, exists_b256FromSlice]
    rw [← hkeccaks, ← exists_and_right]
    refine exists_congr fun ks => and_congr_right fun hks => ?_
    rw [← hcs, ← length_decodeAll hks]
    by_cases hcount : ks.length = cs.length
    · rw [dif_pos hcount, and_iff_right hcount]
      by_cases hu16 : p.blobCount ≤ u16Max
      · have htry : u16TryFrom "blob_count" p.blobCount = .ok p.blobCount := if_pos hu16
        rw [htry, Exit.ok_bind]
        by_cases heq : p.blobCount = cs.length
        · rw [dif_pos ⟨heq, heq ▸ hu16⟩, and_iff_right heq, and_iff_right hu16]
          exact tail_eq_panic heq.symm
        · rw [dif_neg fun h => heq h.1]
          simp [heq]
      · have htry : u16TryFrom "blob_count" p.blobCount =
            .error (.exceedsU16 "blob_count" p.blobCount) := if_neg hu16
        rw [htry]
        simp [hu16]
    · rw [dif_neg hcount]
      simp [hcount]

end BlobMetadata

/-! ## Bytes -/

section Bytes

variable (W : Wires)

/-- `SyncedValuePackage::encode` -/
def SyncedValuePackage.encode : SyncedValuePackage → Exit ProtoErr Bytes :=
  W.package.toBytes fun p => .ok p.toProto

/-- `SyncedValuePackage::decode` -/
def SyncedValuePackage.decode : Bytes → Exit ProtoErr SyncedValuePackage :=
  W.package.fromBytes .wire fromProto

/-- `ProposalPart::to_bytes` -/
def ProposalPart.toBytes : ProposalPart → Exit ProtoErr Bytes := W.part.toBytes toProto

/-- `ProposalPart::from_bytes` -/
def ProposalPart.fromBytes : Bytes → Exit ProtoErr ProposalPart :=
  W.part.fromBytes .wire fromProto

/-- `Codec::<StreamMessage>::encode` -/
def StreamMessage.encode : StreamMessage → Exit ProtoErr Bytes :=
  W.stream.toBytes (toProto W.part)

/-- `Codec::<StreamMessage>::decode` -/
def StreamMessage.decode : Bytes → Exit ProtoErr StreamMessage :=
  W.stream.fromBytes .wire (fromProto W.part)

/-- `Codec::<ProposedValue>::encode` -/
def ProposedValue.encode : ProposedValue → Exit ProtoErr Bytes :=
  W.proposedValue.toBytes toProto

/-- `Codec::<ProposedValue>::decode` -/
def ProposedValue.decode : Bytes → Exit ProtoErr ProposedValue :=
  W.proposedValue.fromBytes .wire fromProto

/-- `encode_certificate`, as bytes. -/
def CommitCertificate.encode : CommitCertificate → Exit ProtoErr Bytes :=
  W.commitCertificate.toBytes toProto

/-- `decode_certificate`, from bytes. -/
def CommitCertificate.decode : Bytes → Exit ProtoErr CommitCertificate :=
  W.commitCertificate.fromBytes .wire fromProto

/-- `encode_polka_certificate`, as bytes. -/
def PolkaCertificate.encode : PolkaCertificate → Exit ProtoErr Bytes :=
  W.polkaCertificate.toBytes toProto

/-- `decode_polka_certificate`, from bytes. -/
def PolkaCertificate.decode : Bytes → Exit ProtoErr PolkaCertificate :=
  W.polkaCertificate.fromBytes .wire fromProto

/-- `encode_round_certificate`, as bytes. -/
def RoundCertificate.encode : RoundCertificate → Exit ProtoErr Bytes :=
  W.roundCertificate.toBytes toProto

/-- `decode_round_certificate`, from bytes. -/
def RoundCertificate.decode : Bytes → Exit ProtoErr RoundCertificate :=
  W.roundCertificate.fromBytes .wire fromProto

/-- `BlobMetadata::to_bytes` -/
def BlobMetadata.toBytes : BlobMetadata → Exit ProtoErr Bytes :=
  W.blobMetadata.toBytes fun m => .ok m.toProto

/-- `BlobMetadata::from_bytes` -/
def BlobMetadata.fromBytes : Bytes → Exit ProtoErr BlobMetadata :=
  W.blobMetadata.fromBytes .wire fromProto

/-- `ConsensusBlockMetadata::to_bytes` -/
def ConsensusBlockMetadata.toBytes : ConsensusBlockMetadata → Exit ProtoErr Bytes :=
  W.consensusMetadata.toBytes toProto

/-- `ConsensusBlockMetadata::from_bytes` -/
def ConsensusBlockMetadata.fromBytes : Bytes → Exit ProtoErr ConsensusBlockMetadata :=
  W.consensusMetadata.fromBytes .wire fromProto

/-- `ArchiveNotice::to_bytes` -/
def ArchiveNotice.toBytes : ArchiveNotice → Exit ProtoErr Bytes :=
  W.archiveNotice.toBytes fun n => .ok n.toProto

/-- `ArchiveNotice::from_bytes` -/
def ArchiveNotice.fromBytes : Bytes → Exit ProtoErr ArchiveNotice :=
  W.archiveNotice.fromBytes .wire fromProto

/-! ## No panic -/

/-- **A decoder returns a value or an error exactly on the messages that do not break it.** Bytes that
are no message at all are refused. -/
theorem decoders_calm_iff (bytes : Bytes) :
    (SyncedValuePackage.decode W bytes ≠ .panic ↔ ∀ p, W.package.decode bytes = some p → ¬ p.Breaks) ∧
    (StreamMessage.decode W bytes ≠ .panic ↔
      ∀ p, W.stream.decode bytes = some p → ¬ p.Breaks W.part) ∧
    (BlobMetadata.fromBytes W bytes ≠ .panic ↔
      ∀ p, W.blobMetadata.decode bytes = some p → ¬ p.Breaks) := by
  refine ⟨?_, ?_, ?_⟩
  · simp only [SyncedValuePackage.decode, ne_eq, Wire.fromBytes_eq_panic,
      SyncedValuePackage.fromProto_eq_panic, not_exists, not_and]
  · simp only [StreamMessage.decode, ne_eq, Wire.fromBytes_eq_panic,
      StreamMessage.fromProto_eq_panic, not_exists, not_and]
  · simp only [BlobMetadata.fromBytes, ne_eq, Wire.fromBytes_eq_panic,
      BlobMetadata.fromProto_eq_panic, not_exists, not_and]

end Bytes

/-- A notice message without a blob hash. -/
def hashlessNotice : ProtoArchiveNotice where
  body := some ⟨1, 0, 0, List.replicate 48 0, [], "", "", none, 0⟩
  signature := none

/-- A package, a part and a stored row, each with a hash field of no bytes, make their decoders
panic. -/
theorem hashless_messages_panic :
    SyncedValuePackage.fromProto
      ⟨some (.metadataOnly (some ⟨0, none, []⟩) [hashlessNotice] [] [])⟩ = .panic ∧
    ProposalPart.fromProto ⟨some (.archiveNotice hashlessNotice)⟩ = .panic ∧
    BlobMetadata.fromProto ⟨0, [], [], [], 0,
      some BlobMetadata.genesisHeader.toProto, none, [], false⟩ = .panic := by
  refine ⟨by decide +kernel, by decide +kernel, by decide +kernel⟩

/-! ## Round trips -/

section RoundTrips

variable (W : Wires)

/-- **What survives the wire.** Each type survives encoding and decoding exactly when it is well formed,
and the two sidecar codecs make and accept the same messages. -/
theorem round_trips_iff :
    (∀ p, Survives (SyncedValuePackage.encode W) (SyncedValuePackage.decode W) p ↔ p.WellFormed) ∧
    (∀ p, Survives (ProposalPart.toBytes W) (ProposalPart.fromBytes W) p ↔ p.WellFormed) ∧
    (∀ m, Survives (StreamMessage.encode W) (StreamMessage.decode W) m ↔ m.WellFormed) ∧
    (∀ v, Survives (ProposedValue.encode W) (ProposedValue.decode W) v ↔ v.WellFormed) ∧
    (∀ c, Survives (CommitCertificate.encode W) (CommitCertificate.decode W) c ↔ c.round ≠ .nil) ∧
    (∀ c, Survives (PolkaCertificate.encode W) (PolkaCertificate.decode W) c ↔ c.round ≠ .nil) ∧
    (∀ c, Survives (RoundCertificate.encode W) (RoundCertificate.decode W) c ↔ c.round ≠ .nil) ∧
    (∀ m, Survives (BlobMetadata.toBytes W) (BlobMetadata.fromBytes W) m ↔ m.WellFormed) ∧
    (∀ m, Survives (ConsensusBlockMetadata.toBytes W) (ConsensusBlockMetadata.fromBytes W) m ↔
      m.round ≠ .nil ∧ m.round.asI64 ≤ i32Max) ∧
    (∀ s : BlobSidecar, (ProposalPart.blobSidecar s).toProto = .ok ⟨some (.blobSidecar s.toProto)⟩) ∧
    (∀ (p : ProtoBlobSidecar) (s : BlobSidecar),
      ProposalPart.fromProto ⟨some (.blobSidecar p)⟩ = .ok (.blobSidecar s) ↔
        BlobSidecar.fromProto p = .ok s) := by
  have htotal : ∀ {α μ : Type} {f : α → μ} {g : μ → Exit ProtoErr α} {a : α},
      Survives (fun a => .ok (f a)) g a ↔ g (f a) = .ok a := by
    intro α μ f g a
    simp [Survives]
  refine ⟨fun p => Wire.survives_bytes.trans (htotal.trans SyncedValuePackage.survives_iff),
    fun p => Wire.survives_bytes.trans ProposalPart.survives_iff,
    fun m => Wire.survives_bytes.trans (StreamMessage.survives_iff W.part),
    fun v => Wire.survives_bytes.trans ProposedValue.survives_iff,
    fun c => Wire.survives_bytes.trans CommitCertificate.survives_iff,
    fun c => Wire.survives_bytes.trans PolkaCertificate.survives_iff,
    fun c => Wire.survives_bytes.trans RoundCertificate.survives_iff,
    fun m => Wire.survives_bytes.trans (htotal.trans BlobMetadata.survives_iff),
    fun m => Wire.survives_bytes.trans ConsensusBlockMetadata.survives_iff,
    fun s => rfl, fun p s => ?_⟩
  rw [← ProposalPart.sidecarFromProto_eq_ok]
  simp only [ProposalPart.fromProto, required, Exit.ok_bind, ProposalPart.partFromProto,
    Exit.bind_eq_ok, Exit.pure_eq_ok, Exit.ok.injEq, ProposalPart.blobSidecar.injEq, exists_eq_right]

end RoundTrips

/-- A notice body of a round beyond `i32`. -/
def lateBody : ArchiveNoticeBody := ⟨1, .some 2147483648, 0, ⟨0⟩, 0, "", "", ⟨0⟩, 0⟩

/-- Consensus metadata of no round. -/
def nilMetadata : ConsensusBlockMetadata := ⟨1, .nil, ⟨0⟩, 0, 0, 0, 0, 0⟩

/-- A notice part of round `2^31` is encoded, and decodes to one of no round; and consensus metadata of
no round is encoded, and refused when it is decoded. -/
theorem late_round_lost :
    (∃ p, (ProposalPart.archiveNotice ⟨lateBody, ⟨0⟩⟩).toProto = .ok p ∧
      ProposalPart.fromProto p = .ok (.archiveNotice ⟨{ lateBody with round := .nil }, ⟨0⟩⟩)) ∧
    ∃ p, nilMetadata.toProto = .ok p ∧
      ConsensusBlockMetadata.fromProto p = .error (.roundRange (-1)) :=
  ⟨⟨_, rfl, by decide +kernel⟩, _, rfl, by decide +kernel⟩

/-! ## Signed notices -/

/-- The bytes `ArchiveNoticeBody::signing_root` hashes. -/
def ArchiveNoticeBody.signingPreimage (o : Oracles) (b : ArchiveNoticeBody) : Bytes :=
  archiveNoticeDomain ++ o.encodeArchiveNoticeBody b.toProto

theorem ArchiveNoticeBody.signingRoot_eq (o : Oracles) (b : ArchiveNoticeBody) :
    b.signingRoot o = bitVecBytes (o.sha256 (b.signingPreimage o)) := rfl

/-- The signed notice of a body goes over the wire with its body unchanged, and still verifies. -/
def ArchiveNoticeBody.SignedSurvives (W : Wires) (o : Oracles) (key : PrivateKey)
    (b : ArchiveNoticeBody) : Prop :=
  ∃ bytes n, (ArchiveNotice.sign o b key).toBytes W = .ok bytes ∧
    ArchiveNotice.fromBytes W bytes = .ok n ∧ n.body = b ∧ n.verify o (o.publicKey key) = true

/-- The message of a body determines its arrays. -/
theorem ProtoArchiveNoticeBody.toWire_injective : Function.Injective toWire := by
  intro p q h
  simp only [toWire, WireNoticeBody.mk.injEq, Option.some.injEq] at h
  obtain ⟨hheight, hround, hindex, hcommitment, hkeccak, hprovider, hlocator, hby, hat⟩ := h
  have hc := bitVecBytes_inj rfl hcommitment
  have hk := bitVecBytes_inj rfl hkeccak
  have ha := bitVecBytes_inj rfl hby
  obtain ⟨_, _, _, ⟨_⟩, _, _, _, ⟨_⟩, _⟩ := p
  obtain ⟨_, _, _, ⟨_⟩, _, _, _, ⟨_⟩, _⟩ := q
  simp only at *
  subst hheight hround hindex hc hk hprovider hlocator ha hat
  rfl

section Signed

variable (W : Wires) (o : Oracles)

/-- What of a signed notice survives is its transmitted form. -/
theorem ArchiveNoticeBody.signedSurvives_iff {key : PrivateKey} {b : ArchiveNoticeBody}
    (hverify : ∀ k msg, o.verify (o.publicKey k) msg (o.sign k msg) = true)
    (hindex : b.blobIndex ≤ u16Max) :
    b.SignedSurvives W o key ↔ b.round.asI64 ≤ i32Max := by
  have hbytes : (ArchiveNotice.sign o b key).toBytes W =
      .ok (W.archiveNotice.encode (ArchiveNotice.sign o b key).toProto) := rfl
  have hdecode : ArchiveNotice.fromBytes W
      (W.archiveNotice.encode (ArchiveNotice.sign o b key).toProto) =
        .ok (ArchiveNotice.sign o b key).transmit :=
    Wire.fromBytes_encode _ |>.trans (ArchiveNotice.fromProto_toProto hindex)
  have hbody : (ArchiveNotice.sign o b key).transmit.body = .fromProto b.toProto := rfl
  rw [← ArchiveNoticeBody.fromProto_toProto_iff]
  constructor
  · rintro ⟨bytes, n, henc, hdec, hb, _⟩
    cases hbytes.symm.trans henc
    cases hdecode.symm.trans hdec
    exact hb
  · intro hb
    refine ⟨_, _, hbytes, hdecode, hbody.trans hb, ?_⟩
    unfold ArchiveNotice.verify
    rw [hbody, hb]
    exact hverify key _

/-- **Signed notices, over the wire.** Two bodies survive, and differ in their preimages if they differ
at all, exactly when their rounds are nil or within `i32`. -/
theorem signed_notice_survives_iff (key : PrivateKey) (b b' : ArchiveNoticeBody)
    (hverify : ∀ k msg, o.verify (o.publicKey k) msg (o.sign k msg) = true)
    (hencode : ∀ p, o.encodeArchiveNoticeBody p = W.noticeBody.encode p.toWire)
    (hindex : b.blobIndex ≤ u16Max) (hindex' : b'.blobIndex ≤ u16Max) :
    (b.SignedSurvives W o key ∧ b'.SignedSurvives W o key ∧
      (b ≠ b' → b.signingPreimage o ≠ b'.signingPreimage o)) ↔
    b.round.asI64 ≤ i32Max ∧ b'.round.asI64 ≤ i32Max := by
  rw [ArchiveNoticeBody.signedSurvives_iff W o hverify hindex,
    ArchiveNoticeBody.signedSurvives_iff W o hverify hindex']
  refine ⟨fun h => ⟨h.1, h.2.1⟩, fun ⟨hround, hround'⟩ => ⟨hround, hround', fun hne heq => hne ?_⟩⟩
  have hwire : W.noticeBody.encode b.toProto.toWire = W.noticeBody.encode b'.toProto.toWire := by
    rw [← hencode, ← hencode]
    exact List.append_cancel_left heq
  have hproto : b.toProto = b'.toProto := by
    apply ProtoArchiveNoticeBody.toWire_injective
    have hdecode := congrArg W.noticeBody.decode hwire
    rw [W.noticeBody.decode_encode, W.noticeBody.decode_encode] at hdecode
    exact Option.some.inj hdecode
  rw [← ArchiveNoticeBody.fromProto_toProto hround, hproto,
    ArchiveNoticeBody.fromProto_toProto hround']

end Signed

/-- The sample primitives, with a notice encoder that keeps every field. -/
noncomputable def wireOracles : Oracles :=
  { Sample.oracles with
    encodeArchiveNoticeBody := fun p => Wires.ofCountable.noticeBody.encode p.toWire }

/-- A body of round 0 and one of no round. -/
theorem signed_notice_survives_rounds :
    let b : ArchiveNoticeBody := { lateBody with round := .some 0 }
    let b' : ArchiveNoticeBody := { lateBody with round := .nil }
    b.SignedSurvives .ofCountable wireOracles ⟨2⟩ ∧ b'.SignedSurvives .ofCountable wireOracles ⟨2⟩ ∧
      (b ≠ b' → b.signingPreimage wireOracles ≠ b'.signingPreimage wireOracles) :=
  (signed_notice_survives_iff .ofCountable wireOracles ⟨2⟩ _ _
    (fun _ _ => by simp [wireOracles, Sample.oracles]) (fun _ => rfl) (by decide) (by decide)).2
    ⟨by decide, by decide⟩

/-- The last `u32` round and no round: two bodies with one message. They have one preimage, and the
signed notice of the first decodes to that of the second. -/
theorem last_round_reads_nil :
    let b : ArchiveNoticeBody := { lateBody with round := .some 4294967295 }
    let b' : ArchiveNoticeBody := { lateBody with round := .nil }
    b ≠ b' ∧ (∀ o, b.signingPreimage o = b'.signingPreimage o) ∧
      ∀ o key, ArchiveNotice.fromProto (ArchiveNotice.sign o b key).toProto =
        .ok (ArchiveNotice.sign o b' key) :=
  ⟨by decide, fun _ => rfl, fun _ _ =>
    ArchiveNotice.fromProto_toProto (Nat.zero_le u16Max)⟩

end Ultramarine
