import Ultramarine.State.Propose

/-!
# Receiving a proposal

`received_proposal_part` of `consensus/src/state.rs`: parts are buffered until their stream is
complete; then the signature is checked, the value is assembled and checked, and the proposal, its
metadata, its blobs and its payload are stored under (height, round). A proposal that fails a check
is dropped without an error.

`assemble` is everything `assemble_and_store_blobs` computes before its first write.

Results:

* `assemble_eq_ok`: what an assembled proposal satisfies.
-/

namespace Ultramarine

open Lib Ssz

/-- `State::verify_proposal_signature` -/
def verifyProposalSignature (cfg : Config) (parts : ProposalParts) : Exit Err Unit := do
  Exit.ensure (∀ p ∈ parts.parts, p.asArchiveNotice = none) .invalidSignature
  let signature ← Exit.ofOption .missingFinPart (parts.parts.filterMap ProposalPart.asFin).getLast?
  let validator ← Exit.ofOption .proposerNotInSet (cfg.validators.getByAddress parts.proposer)
  Exit.ensure (cfg.oracles.verify validator.publicKey (proposalHash cfg.oracles parts.parts)
    signature) .invalidSignature

/-- The execution requests of a proposal: those of the data parts that carry any, which must
agree. -/
def mergeRequests : List Bytes → List ProposalData → Exit Err (List Bytes)
  | acc, [] => .ok acc
  | acc, d :: rest =>
    if d.executionRequests = [] then mergeRequests acc rest
    else if acc = [] then mergeRequests d.executionRequests rest
    else if acc = d.executionRequests then mergeRequests acc rest
    else .error .executionRequestsMismatch

/-- `State::validate_proposed_timestamp` -/
def validateProposedTimestamp (now : Nat) (latestBlock : Option ExecutionBlock)
    (header : ExecutionPayloadHeader) : Exit Err Unit := do
  Exit.ensure (header.timestamp ≤ addU64 now loadMaxFutureDriftSecs) .futureTimestamp
  let parent ← Exit.ofOption .missingLatestBlock latestBlock
  Exit.ensure (header.parentHash = parent.blockHash) .parentHashMismatch
  Exit.ensure (parent.timestamp < header.timestamp) .timestampNotMonotonic
  Exit.ensure (addU64 parent.timestamp loadMinBlockTimeSecs ≤ header.timestamp) .timestampTooClose

variable {cfg : Config} {now : Nat} {a : Assembled} {m m' : Machine Disk Memory}
  {parts : ProposalParts} {d : Disk} {v : ProposedValue} {slot : Slot}
  {header : ExecutionPayloadHeader} {latestBlock : Option ExecutionBlock} {metadata : ValueMetadata}
  {part : StreamMessage} {peer : PeerId}

theorem validateProposedTimestamp_eq_ok :
    validateProposedTimestamp now latestBlock header = .ok () ↔
      header.timestamp ≤ addU64 now loadMaxFutureDriftSecs ∧ ∃ parent, latestBlock = some parent ∧
        header.parentHash = parent.blockHash ∧ parent.timestamp < header.timestamp ∧
        addU64 parent.timestamp loadMinBlockTimeSecs ≤ header.timestamp := by
  simp only [validateProposedTimestamp, Exit.bind_eq_ok, Exit.ensure_eq_ok, Exit.ofOption_eq_ok,
    exists_const]

/-- The data parts of a proposal. -/
def ProposalParts.data (parts : ProposalParts) : List ProposalData :=
  parts.parts.filterMap ProposalPart.asData

/-- The sidecars of a proposal, in order of arrival. -/
def ProposalParts.sidecars (parts : ProposalParts) : List BlobSidecar :=
  parts.parts.filterMap ProposalPart.asBlobSidecar

/-- What `assemble_and_store_blobs` derives from a proposal. -/
structure Assembled where
  value : ProposedValue
  data : Bytes
  executionRequests : List Bytes
  sidecars : List BlobSidecar
  blobMetadata : BlobMetadata

/-- Where a proposal chains to: the parent root of its verified sidecars, or that of the metadata
one height below. -/
def proposalParentRoot (cfg : Config) (d : Disk) (parts : ProposalParts)
    (metadata : ValueMetadata) : Exit Err B256 := do
  if parts.sidecars = [] then resolveParentRootForHeight cfg d parts.height
  else
    let signedHeader ← verifyBlobSidecars cfg d parts.height parts.proposer metadata parts.sidecars
    pure signedHeader.message.parentRoot

theorem proposalParentRoot_eq_ok {root : B256}
    (h : proposalParentRoot cfg d parts metadata = .ok root) :
    resolveParentRootForHeight cfg d parts.height = .ok root := by
  unfold proposalParentRoot at h
  split at h
  · exact h
  · simp only [Exit.bind_eq_ok, Exit.pure_eq_ok, Exit.ok.injEq] at h
    obtain ⟨signedHeader, hverify, rfl⟩ := h
    exact (verifyBlobSidecars_eq_ok.1 hverify).parentRoot_eq

/-- The checks of `assemble_and_store_blobs`. A payload that is missing or does not decode leaves
no metadata to validate the timestamp of, so it is an error in every branch. -/
def assemble (cfg : Config) (d : Disk) (latestBlock : Option ExecutionBlock) (now : Nat)
    (parts : ProposalParts) : Exit Err Assembled := do
  let requests ← mergeRequests [] parts.data
  validateExecutionRequests requests
  let data := parts.data.flatMap (·.bytes)
  Exit.ensure (data ≠ []) .emptyPayload
  let payload ← Exit.ofOption .payloadDecode (cfg.oracles.fromSszBytes data)
  let header := fromPayload cfg.oracles payload (some (cfg.oracles.computeRequestsHash requests))
  let commitments := parts.sidecars.map (·.kzgCommitment)
  let metadata ← Exit.orPanic (ValueMetadata.new? header commitments)
  validateProposedTimestamp now latestBlock header
  let parentRoot ← proposalParentRoot cfg d parts metadata
  let blobMetadata ← Exit.orPanic (blockMetadata? parts.height parentRoot commitments
    (parts.sidecars.map (·.blobKeccak cfg.oracles)) header (cfg.validatorIndex parts.proposer))
  pure
    { value := ⟨parts.height, parts.round, .nil, parts.proposer,
        Value.new cfg.oracles metadata, .valid⟩
      data
      executionRequests := requests
      sidecars := parts.sidecars
      blobMetadata }

/-- What an assembled proposal is made of: the payload `payload`, the metadata `metadata` of the
value, and the root `parentRoot` the block chains to. -/
structure AssembledFrom (cfg : Config) (d : Disk) (latestBlock : Option ExecutionBlock) (now : Nat)
    (parts : ProposalParts) (payload : ExecutionPayloadV3) (metadata : ValueMetadata)
    (parentRoot : B256) (a : Assembled) : Prop where
  requests_eq : mergeRequests [] parts.data = .ok a.executionRequests
  requests_ok : validateExecutionRequests a.executionRequests = .ok ()
  data_eq : a.data = parts.data.flatMap (·.bytes)
  data_ne_nil : a.data ≠ []
  decode : cfg.oracles.fromSszBytes a.data = some payload
  metadata_eq : ValueMetadata.new?
    (fromPayload cfg.oracles payload (some (cfg.oracles.computeRequestsHash a.executionRequests)))
    (parts.sidecars.map (·.kzgCommitment)) = some metadata
  timestamp_ok : validateProposedTimestamp now latestBlock metadata.executionPayloadHeader = .ok ()
  parent_eq : proposalParentRoot cfg d parts metadata = .ok parentRoot
  blobMetadata_eq : blockMetadata? parts.height parentRoot metadata.blobKzgCommitments
    (parts.sidecars.map (·.blobKeccak cfg.oracles)) metadata.executionPayloadHeader
    (cfg.validatorIndex parts.proposer) = some a.blobMetadata
  value_eq : a.value = ⟨parts.height, parts.round, .nil, parts.proposer,
    Value.new cfg.oracles metadata, .valid⟩
  sidecars_eq : a.sidecars = parts.sidecars

theorem ValueMetadata.new?_eq_some {commitments : List KzgCommitment}
    (h : ValueMetadata.new? header commitments = some metadata) :
    metadata.executionPayloadHeader = header ∧ metadata.blobKzgCommitments = commitments ∧
      commitments.length ≤ u16Max := by
  unfold ValueMetadata.new? at h
  split at h
  · rename_i hlen
    cases h
    exact ⟨rfl, rfl, hlen⟩
  · cases h

/-- **What assembly establishes**, and all it needs. -/
theorem assemble_eq_ok :
    assemble cfg d latestBlock now parts = .ok a ↔
      ∃ payload metadata parentRoot,
        AssembledFrom cfg d latestBlock now parts payload metadata parentRoot a := by
  unfold assemble
  simp only [Exit.bind_eq_ok, Exit.ensure_eq_ok, Exit.ofOption_eq_ok, Exit.orPanic_eq_ok,
    Exit.pure_eq_ok, Exit.ok.injEq]
  constructor
  · rintro ⟨requests, hreq, ⟨⟩, hvalid, ⟨⟩, hne, payload, hdec, metadata, hmeta, ⟨⟩, hts, root, hroot,
      bm, hbm, rfl⟩
    obtain ⟨hheader, hcommitments, _⟩ := ValueMetadata.new?_eq_some hmeta
    refine ⟨payload, metadata, root, hreq, hvalid, rfl, hne, hdec, hmeta, ?_, hroot, ?_, rfl, rfl⟩
    · rw [hheader]
      exact hts
    · rw [hheader, hcommitments]
      exact hbm
  · rintro ⟨payload, metadata, root, h⟩
    obtain ⟨hheader, hcommitments, _⟩ := ValueMetadata.new?_eq_some h.metadata_eq
    have hts := h.timestamp_ok
    have hbm := h.blobMetadata_eq
    rw [hheader] at hts
    rw [hheader, hcommitments] at hbm
    refine ⟨_, h.requests_eq, (), h.requests_ok, (), ?_, payload, ?_, metadata, h.metadata_eq, (),
      hts, root, h.parent_eq, _, hbm, ?_⟩
    · rw [← h.data_eq]
      exact h.data_ne_nil
    · rw [← h.data_eq]
      exact h.decode
    · rw [← h.data_eq, ← h.value_eq, ← h.sidecars_eq]

section AssembledFrom

variable {cfg : Config} {d : Disk} {latestBlock : Option ExecutionBlock} {now : Nat}
  {parts : ProposalParts} {payload : ExecutionPayloadV3} {metadata : ValueMetadata}
  {parentRoot : B256} {a : Assembled}

/-- The sidecars of an assembled proposal have been checked. -/
theorem AssembledFrom.sidecarsOk
    (h : AssembledFrom cfg d latestBlock now parts payload metadata parentRoot a)
    (hne : parts.sidecars ≠ []) :
    ∃ signedHeader, SidecarsOk cfg d parts.height parts.proposer metadata parts.sidecars
      signedHeader := by
  have hparent := h.parent_eq
  unfold proposalParentRoot at hparent
  rw [if_neg hne] at hparent
  simp only [Exit.bind_eq_ok, Exit.pure_eq_ok, Exit.ok.injEq] at hparent
  obtain ⟨signedHeader, hverify, _⟩ := hparent
  exact ⟨signedHeader, verifyBlobSidecars_eq_ok.1 hverify⟩

/-- The commitments of an assembled proposal are those of its sidecars, in order of arrival, and
every sidecar carries the commitment of its index. -/
theorem AssembledFrom.commitment_eq
    (h : AssembledFrom cfg d latestBlock now parts payload metadata parentRoot a) :
    metadata.blobKzgCommitments = parts.sidecars.map (·.kzgCommitment) ∧
      ∀ s ∈ parts.sidecars, metadata.blobKzgCommitments[s.index]? = some s.kzgCommitment := by
  refine ⟨(ValueMetadata.new?_eq_some h.metadata_eq).2.1, fun s hs => ?_⟩
  obtain ⟨_, hok⟩ := h.sidecarsOk (List.ne_nil_of_mem hs)
  exact hok.commitment_eq s hs

end AssembledFrom

/-- `State::assemble_and_store_blobs` -/
def assembleAndStoreBlobs (cfg : Config) (now : Nat) (parts : ProposalParts) : Act Assembled := do
  let m ← Prog.get
  let a ← Prog.ofExit (assemble cfg m.disk m.mem.latestBlock now parts)
  verifyAndStore cfg parts.height parts.round.asI64 a.sidecars
  putBlobMetadataUndecided ⟨parts.height, parts.round⟩ a.blobMetadata
  pure a

/-- What follows a complete stream in `received_proposal_part`. -/
def receivedProposal (cfg : Config) (now : Nat) (parts : ProposalParts) :
    Act (Option ProposedValue) := do
  let mem ← getMem
  if parts.height < mem.currentHeight then pure none
  else
    match verifyProposalSignature cfg parts with
    | .ok () =>
      match ← (assembleAndStoreBlobs cfg now parts).attempt with
      | .error _ => pure none
      | .ok a =>
        Prog.onlyIf (a.sidecars ≠ []) (trackBlobRound ⟨parts.height, parts.round⟩)
        storeUndecidedProposal a.value
        storeUndecidedBlockData ⟨parts.height, parts.round⟩ ⟨a.data, a.executionRequests⟩
        pure (some a.value)
    | _ => pure none

/-- The memory with new stream buffers. -/
def Memory.withStreams (streams : PartStreamsMap) (mem : Memory) : Memory :=
  { mem with streamsMap := streams }

/-- `State::received_proposal_part` -/
def receivedProposalPart (cfg : Config) (now : Nat) (peer : PeerId) (part : StreamMessage) :
    Act (Option ProposedValue) := do
  let mem ← getMem
  let (streams, complete) := PartStreamsMap.insert mem.streamsMap peer part
  Prog.modifyMem (Memory.withStreams streams)
  match complete with
  | none => pure none
  | some parts => receivedProposal cfg now parts

/-! ## What a received proposal leaves behind -/

/-- The disk after a proposal is stored under its slot. Rows that were there stay. -/
def Disk.received (slot : Slot) (a : Assembled) (d : Disk) : Disk where
  store := ((d.store.apply (.insertBlobMetadataUndecided slot a.blobMetadata)).apply
    (.insertUndecidedProposal a.value)).apply
      (.insertUndecidedBlockData slot ⟨a.data, a.executionRequests⟩)
  blobs := d.blobs.putAll slot.height slot.round.asI64 a.sidecars

/-- The memory after a proposal is stored: the rounds with blobs are tracked. -/
def Memory.received (slot : Slot) (a : Assembled) (mem : Memory) : Memory :=
  if a.sidecars = [] then mem else { mem with blobRounds := mem.blobRounds.insert slot () }

/-- What is stored for a slot. -/
structure SlotContents where
  proposal : Option ProposedValue
  blockData : Option BlockPayloadRecord
  metadata : Option BlobMetadata
  blobs : List BlobSidecar
deriving DecidableEq

/-- What a disk holds for a slot. -/
def Disk.contents (slot : Slot) (d : Disk) : SlotContents where
  proposal := d.store.undecidedProposals[slot]?
  blockData := d.store.undecidedBlockData[slot]?
  metadata := d.store.blobMetadataUndecided[slot]?
  blobs := d.blobs.getUndecidedBlobs slot.height slot.round.asI64

/-- Nothing is stored for the slot. -/
structure Disk.FreeSlot (slot : Slot) (d : Disk) : Prop where
  proposal : d.store.undecidedProposals[slot]? = none
  blockData : d.store.undecidedBlockData[slot]? = none
  metadata : d.store.blobMetadataUndecided[slot]? = none
  blobs : ∀ i, d.blobs.undecided[BlobKey.mk slot.height slot.round.asI64 i]? = none

/-- The rows of a free slot are those of the proposal it receives. -/
theorem Disk.FreeSlot.rows_received (hfree : d.FreeSlot slot)
    (hslot : Slot.mk a.value.height a.value.round = slot) :
    (d.received slot a).contents slot =
      ⟨some a.value, some ⟨a.data, a.executionRequests⟩, some a.blobMetadata,
        (d.blobs.putAll slot.height slot.round.asI64 a.sidecars).getUndecidedBlobs slot.height
          slot.round.asI64⟩ := by
  have hproposal : (d.received slot a).store.undecidedProposals[slot]? = some a.value := by
    refine (Table.getElem?_insertIfNew_eq d.store.undecidedProposals
      (Slot.mk a.value.height a.value.round) slot a.value).trans ?_
    rw [if_pos hslot, hslot, hfree.proposal]
    rfl
  have hdata : (d.received slot a).store.undecidedBlockData[slot]? =
      some ⟨a.data, a.executionRequests⟩ := by
    refine (Table.getElem?_insertIfNew_eq d.store.undecidedBlockData slot slot _).trans ?_
    rw [if_pos rfl, hfree.blockData]
    rfl
  have hmetadata : (d.received slot a).store.blobMetadataUndecided[slot]? =
      some a.blobMetadata := by
    refine (Table.getElem?_insertIfNew_eq d.store.blobMetadataUndecided slot slot _).trans ?_
    rw [if_pos rfl, hfree.metadata]
    rfl
  unfold Disk.contents
  rw [hproposal, hdata, hmetadata]
  rfl

/-- **A free slot holds the proposal it receives.** -/
theorem Disk.FreeSlot.contents_received {n : Nat} (hfree : d.FreeSlot slot)
    (hslot : Slot.mk a.value.height a.value.round = slot) (hn : ∀ s ∈ a.sidecars, s.index < n) :
    (d.received slot a).contents slot =
      ⟨some a.value, some ⟨a.data, a.executionRequests⟩, some a.blobMetadata,
        BlobStore.kept n a.sidecars⟩ := by
  rw [hfree.rows_received hslot, BlobStore.getUndecidedBlobs_putAll hn hfree.blobs]

theorem returns_assembleAndStoreBlobs :
    Prog.Returns (assembleAndStoreBlobs cfg now parts) m a m' ↔
      assemble cfg m.disk m.mem.latestBlock now parts = .ok a ∧ kzgOk cfg a.sidecars ∧
        m' = ⟨⟨m.disk.store.apply (.insertBlobMetadataUndecided ⟨parts.height, parts.round⟩
            a.blobMetadata), m.disk.blobs.putAll parts.height parts.round.asI64 a.sidecars⟩,
          m.mem⟩ := by
  unfold assembleAndStoreBlobs putBlobMetadataUndecided
  simp only [Prog.returns_get_bind, Prog.returns_ofExit_bind,
    Prog.returns_bind (p := verifyAndStore _ _ _ _), returns_verifyAndStore,
    returns_storeWrite_bind, Prog.returns_pure]
  constructor
  · rintro ⟨a', ha, _, _, ⟨hkzg, rfl⟩, rfl, rfl⟩
    exact ⟨ha, hkzg, rfl⟩
  · rintro ⟨ha, hkzg, rfl⟩
    exact ⟨a, ha, (), _, ⟨hkzg, rfl⟩, rfl, rfl⟩

/-- The last writes of `received_proposal_part`. -/
theorem returns_storeProposal :
    Prog.Returns (do
        Prog.onlyIf (a.sidecars ≠ []) (trackBlobRound slot)
        storeUndecidedProposal a.value
        storeUndecidedBlockData slot ⟨a.data, a.executionRequests⟩
        pure (some a.value)) m (some v) m' ↔
      a.value.round ≠ .nil ∧ v = a.value ∧
        m' = ⟨⟨(m.disk.store.apply (.insertUndecidedProposal a.value)).apply
            (.insertUndecidedBlockData slot ⟨a.data, a.executionRequests⟩), m.disk.blobs⟩,
          m.mem.received slot a⟩ := by
  unfold storeUndecidedProposal storeUndecidedBlockData trackBlobRound Memory.received
  simp only [bind_assoc, Prog.returns_bind (p := Prog.onlyIf _ _), Prog.returns_onlyIf,
    Prog.returns_modifyMem, Prog.returns_ofExit_bind, Exit.ensure_eq_ok, exists_const,
    returns_storeWrite_bind, Prog.returns_pure, Option.some.injEq]
  constructor
  · rintro ⟨m₁, hm₁, hround, rfl, rfl⟩
    refine ⟨hround, rfl, ?_⟩
    rcases hm₁ with ⟨hne, rfl⟩ | ⟨hnil, rfl⟩
    · rw [if_neg hne]
    · rw [if_pos (not_not.1 hnil)]
  · rintro ⟨hround, rfl, rfl⟩
    by_cases hnil : a.sidecars = []
    · rw [if_pos hnil]
      exact ⟨m, .inr ⟨not_not.2 hnil, rfl⟩, hround, rfl, rfl⟩
    · rw [if_neg hnil]
      exact ⟨_, .inl ⟨hnil, rfl⟩, hround, rfl, rfl⟩

/-- **When a complete proposal is accepted**, and the machine it leaves. -/
theorem returns_receivedProposal :
    Prog.Returns (receivedProposal cfg now parts) m (some v) m' ↔
      m.mem.currentHeight ≤ parts.height ∧ verifyProposalSignature cfg parts = .ok () ∧
        ∃ a, assemble cfg m.disk m.mem.latestBlock now parts = .ok a ∧ kzgOk cfg a.sidecars ∧
          parts.round ≠ .nil ∧ v = a.value ∧
          m' = ⟨m.disk.received ⟨parts.height, parts.round⟩ a,
            m.mem.received ⟨parts.height, parts.round⟩ a⟩ := by
  have hround : ∀ {a}, assemble cfg m.disk m.mem.latestBlock now parts = .ok a →
      a.value.round = parts.round := by
    intro a ha
    obtain ⟨_, _, _, hfrom⟩ := assemble_eq_ok.1 ha
    rw [hfrom.value_eq]
  unfold receivedProposal
  rw [returns_getMem_bind]
  split
  · rename_i hlt
    rw [Prog.returns_pure]
    exact ⟨fun h => (by cases h.1), fun h => absurd h.1 (not_le.2 hlt)⟩
  rename_i hge
  split
  · rename_i hsig
    rw [Prog.returns_bind]
    constructor
    · rintro ⟨r, m₁, hattempt, hrest⟩
      rcases Prog.returns_attempt.1 hattempt with ⟨a, rfl, hassembled⟩ | ⟨e, rfl, _⟩
      · obtain ⟨ha, hkzg, rfl⟩ := returns_assembleAndStoreBlobs.1 hassembled
        obtain ⟨hnil, rfl, rfl⟩ := returns_storeProposal.1 hrest
        rw [hround ha] at hnil
        exact ⟨not_lt.1 hge, hsig, a, ha, hkzg, hnil, rfl, rfl⟩
      · cases (Prog.returns_pure.1 hrest).1
    · rintro ⟨_, _, a, ha, hkzg, hnil, rfl, rfl⟩
      rw [← hround ha] at hnil
      exact ⟨.ok a, _, Prog.returns_attempt.2 (.inl ⟨a, rfl,
        returns_assembleAndStoreBlobs.2 ⟨ha, hkzg, rfl⟩⟩), returns_storeProposal.2 ⟨hnil, rfl, rfl⟩⟩
  · rename_i hsig
    rw [Prog.returns_pure]
    exact ⟨fun h => (by cases h.1), fun h => absurd h.2.1 hsig⟩

/-- A message is answered with a value exactly if it completes a stream that is accepted. -/
theorem returns_receivedProposalPart :
    Prog.Returns (receivedProposalPart cfg now peer part) m (some v) m' ↔
      ∃ parts, (PartStreamsMap.insert m.mem.streamsMap peer part).2 = some parts ∧
        Prog.Returns (receivedProposal cfg now parts) ⟨m.disk,
          m.mem.withStreams (PartStreamsMap.insert m.mem.streamsMap peer part).1⟩ (some v) m' := by
  unfold receivedProposalPart
  rw [returns_getMem_bind]
  rcases PartStreamsMap.insert m.mem.streamsMap peer part with ⟨streams, complete⟩
  dsimp only
  rw [Prog.returns_modifyMem_bind]
  cases complete with
  | none =>
    dsimp only
    rw [Prog.returns_pure]
    exact ⟨fun h => (nomatch h.1), fun ⟨_, h, _⟩ => (nomatch h)⟩
  | some parts =>
    dsimp only
    exact ⟨fun h => ⟨parts, rfl, h⟩, fun ⟨_, h, hr⟩ => by cases h; exact hr⟩

/-- The parts of the memory that a decision checks a block against. -/
theorem Memory.received_chain (slot : Slot) (a : Assembled) (mem : Memory) :
    (mem.received slot a).latestBlock = mem.latestBlock ∧
      (mem.received slot a).executedHeight = mem.executedHeight := by
  unfold Memory.received
  split <;> exact ⟨rfl, rfl⟩

/-- **What an accepted proposal went through.** -/
theorem receivedProposalPart_inversion
    (hparts : (PartStreamsMap.insert m.mem.streamsMap peer part).2 = some parts)
    (hr : Prog.Returns (receivedProposalPart cfg now peer part) m (some v) m') :
    ∃ payload metadata parentRoot a,
      AssembledFrom cfg m.disk m.mem.latestBlock now parts payload metadata parentRoot a ∧
        v = a.value ∧ m'.disk = m.disk.received ⟨parts.height, parts.round⟩ a ∧
        m'.mem.latestBlock = m.mem.latestBlock ∧ m'.mem.executedHeight = m.mem.executedHeight := by
  obtain ⟨parts', hparts', hr⟩ := returns_receivedProposalPart.1 hr
  cases hparts.symm.trans hparts'
  obtain ⟨_, _, a, ha, _, _, rfl, rfl⟩ := returns_receivedProposal.1 hr
  obtain ⟨payload, metadata, parentRoot, hfrom⟩ := assemble_eq_ok.1 ha
  exact ⟨payload, metadata, parentRoot, a, hfrom, rfl, rfl, Memory.received_chain _ _ _⟩

end Ultramarine
