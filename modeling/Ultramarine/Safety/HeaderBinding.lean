import Ultramarine.App.Effects
import Ultramarine.State.Synced

/-!
# What votes and signatures bind of a beacon header

Blob heights are chained by the roots of beacon headers that every node derives for itself. A header
is bound twice: by the id consensus votes on (`consensus_hash`, over a byte stream of header fields and
commitments) and, for a block with blobs, by the header its proposer signs. Neither binds all of it:

* the stream of `consensus_hash` leaves out `extra_data`, `transactions_root` and `withdrawals_root`,
  which are leaves of the execution payload root and so of the body root;
* `verify_blob_sidecars` compares the slot, the proposer index, the parent root and the body root of the
  signed header, and not its state root.

Results:

* `voted_id_binds_body`: two values with one byte stream have one body root exactly if they agree on
  those three fields;
* `signed_header_is_stored`: an accepted signed header is the header of the row the node stores exactly
  if it has the state root of the payload.
-/

namespace Ultramarine

open Lib Ssz

/-! ## The byte stream of the voted id -/

section Stream

@[simp] theorem length_hashBytes (bytes : Bytes) : (hashBytes bytes).length = 8 + bytes.length := by
  simp [hashBytes]

theorem hashBytes_inj {a b : Bytes} (h : hashBytes a = hashBytes b) : a = b :=
  (List.append_inj h (by simp)).2

/-- The optional end of the stream: the requests hash, if there is one, and the commitments. -/
def streamEnd (requestsHash : Option B256) (commitments : List KzgCommitment) : Bytes :=
  (match requestsHash with
    | some r => hashBytes (bitVecBytes r)
    | none => []) ++ (commitments.map fun c => hashBytes (bitVecBytes c.bytes)).flatten

theorem commitments_inj {cs cs' : List KzgCommitment}
    (h : (cs.map fun c => hashBytes (bitVecBytes c.bytes)).flatten =
      (cs'.map fun c => hashBytes (bitVecBytes c.bytes)).flatten) : cs = cs' := by
  have hlen : ∀ {cs : List KzgCommitment}, ∀ x ∈ cs.map fun c => hashBytes (bitVecBytes c.bytes),
      x.length = 56 := by
    intro cs x hx
    obtain ⟨c, _, rfl⟩ := List.mem_map.1 hx
    simp
  have hmap := flatten_inj (n := 56) (by decide) hlen hlen h
  refine List.map_injective_iff.2 (fun c c' hc => ?_) hmap
  have hbytes := bitVecBytes_inj (by decide) (hashBytes_inj hc)
  cases c
  cases c'
  exact congrArg _ hbytes

/-- The first length of a commitment is 48, that of a requests hash 32. -/
theorem hashBytes_requests_ne {r : B256} {rest : Bytes} {cs : List KzgCommitment} :
    hashBytes (bitVecBytes r) ++ rest ≠
      (cs.map fun c => hashBytes (bitVecBytes c.bytes)).flatten := by
  intro h
  cases cs with
  | nil =>
    have hlen := congrArg List.length h
    simp at hlen
  | cons c cs =>
    rw [List.map_cons, List.flatten_cons] at h
    have htake := congrArg (List.take 8) h
    simp only [hashBytes, List.append_assoc, length_bitVecBytes] at htake
    rw [List.take_left' (length_leBytes 8 _), List.take_left' (length_leBytes 8 _)] at htake
    revert htake
    decide

theorem streamEnd_inj {r r' : Option B256} {cs cs' : List KzgCommitment}
    (h : streamEnd r cs = streamEnd r' cs') : r = r' ∧ cs = cs' := by
  unfold streamEnd at h
  cases r with
  | none =>
    cases r' with
    | none => exact ⟨rfl, commitments_inj h⟩
    | some r' => exact absurd h.symm hashBytes_requests_ne
  | some r =>
    cases r' with
    | none => exact absurd h hashBytes_requests_ne
    | some r' =>
      obtain ⟨hr, hcs⟩ := List.append_inj h (by simp)
      exact ⟨congrArg some (bitVecBytes_inj (by decide) (hashBytes_inj hr)), commitments_inj hcs⟩

/-- What two values with one byte stream share. Numbers are bound as the eight bytes they are written
as. -/
structure SameStream (a b : ExecutionPayloadHeader) : Prop where
  blockHash : a.blockHash = b.blockHash
  parentHash : a.parentHash = b.parentHash
  stateRoot : a.stateRoot = b.stateRoot
  receiptsRoot : a.receiptsRoot = b.receiptsRoot
  logsBloom : a.logsBloom = b.logsBloom
  blockNumber : leBytes 8 a.blockNumber = leBytes 8 b.blockNumber
  gasLimit : leBytes 8 a.gasLimit = leBytes 8 b.gasLimit
  gasUsed : leBytes 8 a.gasUsed = leBytes 8 b.gasUsed
  timestamp : leBytes 8 a.timestamp = leBytes 8 b.timestamp
  baseFeePerGas : leBytes 32 a.baseFeePerGas.toNat = leBytes 32 b.baseFeePerGas.toNat
  blobGasUsed : leBytes 8 a.blobGasUsed = leBytes 8 b.blobGasUsed
  excessBlobGas : leBytes 8 a.excessBlobGas = leBytes 8 b.excessBlobGas
  prevRandao : a.prevRandao = b.prevRandao
  feeRecipient : a.feeRecipient = b.feeRecipient

/-- **The stream can be read back**: its pieces have fixed lengths, up to its end. -/
theorem sameStream_of_input_eq {m m' : ValueMetadata}
    (h : m.consensusHashInput = m'.consensusHashInput) :
    SameStream m.executionPayloadHeader m'.executionPayloadHeader ∧
      m.blobKzgCommitments = m'.blobKzgCommitments := by
  simp only [ValueMetadata.consensusHashInput, List.append_assoc] at h
  obtain ⟨hblockHash, h⟩ := List.append_inj h (by simp)
  obtain ⟨hparentHash, h⟩ := List.append_inj h (by simp)
  obtain ⟨hstateRoot, h⟩ := List.append_inj h (by simp)
  obtain ⟨hreceiptsRoot, h⟩ := List.append_inj h (by simp)
  obtain ⟨hlogsBloom, h⟩ := List.append_inj h (by simp)
  obtain ⟨hblockNumber, h⟩ := List.append_inj h (by simp)
  obtain ⟨hgasLimit, h⟩ := List.append_inj h (by simp)
  obtain ⟨hgasUsed, h⟩ := List.append_inj h (by simp)
  obtain ⟨htimestamp, h⟩ := List.append_inj h (by simp)
  obtain ⟨hbaseFee, h⟩ := List.append_inj h (by simp)
  obtain ⟨hblobGasUsed, h⟩ := List.append_inj h (by simp)
  obtain ⟨hexcess, h⟩ := List.append_inj h (by simp)
  obtain ⟨hprevRandao, h⟩ := List.append_inj h (by simp)
  obtain ⟨hfeeRecipient, h⟩ := List.append_inj h (by simp)
  have hword : ∀ {a b : B256}, hashBytes (bitVecBytes a) = hashBytes (bitVecBytes b) → a = b :=
    fun h => bitVecBytes_inj (by decide) (hashBytes_inj h)
  refine ⟨⟨hword hblockHash, hword hparentHash, hword hstateRoot, hword hreceiptsRoot,
    bitVecBytes_inj (by decide) (hashBytes_inj hlogsBloom), hblockNumber, hgasLimit, hgasUsed,
    htimestamp, hashBytes_inj hbaseFee, hblobGasUsed, hexcess, hword hprevRandao, ?_⟩,
    (streamEnd_inj h).2⟩
  have hbytes := bitVecBytes_inj (by decide) (hashBytes_inj hfeeRecipient)
  cases hm : m.executionPayloadHeader.feeRecipient
  cases hm' : m'.executionPayloadHeader.feeRecipient
  rw [hm, hm'] at hbytes
  exact congrArg _ hbytes

end Stream

/-! ## The roots -/

section Roots

variable (o : Oracles)

/-- The leaves of the body root of a value. -/
def ValueMetadata.bodyLeaves (m : ValueMetadata) : List B256 :=
  bodyMerkleLeaves o (fromUltramarineData o m.blobKzgCommitments m.executionPayloadHeader)
    (treeHashKzgCommitments o m.blobKzgCommitments)

/-- The body root of a value. -/
def ValueMetadata.bodyRoot (m : ValueMetadata) : B256 :=
  computeBodyRoot o (fromUltramarineData o m.blobKzgCommitments m.executionPayloadHeader)

/-- The beacon header of a value at a height, by a proposer, over a parent. -/
def ValueMetadata.beaconHeader (m : ValueMetadata) (height : Height) (proposer : Option Nat)
    (parentRoot : B256) : BeaconBlockHeader :=
  BlobCore.toBeaconHeader o
    ⟨height, parentRoot, m.blobKzgCommitments, m.executionPayloadHeader, proposer⟩

/-- The pairs hashed for the body root and for the execution payload root in it. -/
def ValueMetadata.bodyPairs (m : ValueMetadata) : List (B256 × B256) :=
  Merkle.pairs o.hash32Concat 0 4 (m.bodyLeaves o) ++
    Merkle.pairs o.hash32Concat 0 4 (executionPayloadLeaves o m.executionPayloadHeader)

/-- What the stream leaves out, as the leaves it becomes: `extra_data`, `transactions_root` and
`withdrawals_root`. -/
def unhashedLeaves (h : ExecutionPayloadHeader) : B256 × B256 × B256 :=
  (treeHashVariableBytesSsz o h.extraData, h.transactionsRoot, h.withdrawalsRoot)

variable {o} {m m' : ValueMetadata}

theorem ValueMetadata.bodyRoot_eq (m : ValueMetadata) :
    m.bodyRoot o = Merkle.root o.hash32Concat 0 4 (m.bodyLeaves o) := by
  unfold ValueMetadata.bodyRoot computeBodyRoot merkleHasher
  rw [depthFor_sixteen]
  rfl

/-- With the fields the stream leaves out, the stream binds every leaf. -/
theorem executionPayloadLeaves_eq {a b : ExecutionPayloadHeader} (h : SameStream a b)
    (hrest : unhashedLeaves o a = unhashedLeaves o b) :
    executionPayloadLeaves o a = executionPayloadLeaves o b := by
  simp only [unhashedLeaves, Prod.mk.injEq] at hrest
  unfold executionPayloadLeaves u64ToBytes32
  rw [h.parentHash, h.feeRecipient, h.stateRoot, h.receiptsRoot, h.logsBloom, h.prevRandao,
    h.blockNumber, h.gasLimit, h.gasUsed, h.timestamp, hrest.1, h.baseFeePerGas, h.blockHash,
    hrest.2.1, hrest.2.2, h.blobGasUsed, h.excessBlobGas]

theorem bodyRoot_eq_of_unhashed (hinput : m.consensusHashInput = m'.consensusHashInput)
    (hrest : unhashedLeaves o m.executionPayloadHeader = unhashedLeaves o m'.executionPayloadHeader) :
    m.bodyRoot o = m'.bodyRoot o := by
  obtain ⟨hsame, hcommitments⟩ := sameStream_of_input_eq hinput
  have hroot : computeExecutionPayloadHeaderRoot o m.executionPayloadHeader =
      computeExecutionPayloadHeaderRoot o m'.executionPayloadHeader := by
    rw [computeExecutionPayloadHeaderRoot_eq, computeExecutionPayloadHeaderRoot_eq,
      executionPayloadLeaves_eq hsame hrest]
  unfold ValueMetadata.bodyRoot fromUltramarineData
  rw [hroot, hcommitments]

/-- Two values with one body root have the same execution payload, leaf by leaf. -/
theorem unhashed_eq_of_bodyRoot
    (hsep : Merkle.Separates o.hash32Concat (m.bodyPairs o) (m'.bodyPairs o))
    (h : m.bodyRoot o = m'.bodyRoot o) :
    unhashedLeaves o m.executionPayloadHeader = unhashedLeaves o m'.executionPayloadHeader := by
  obtain ⟨hbody, hpayload⟩ := Merkle.Separates.append (by simp) hsep
  rw [m.bodyRoot_eq, m'.bodyRoot_eq] at h
  have hroot : computeExecutionPayloadHeaderRoot o m.executionPayloadHeader =
      computeExecutionPayloadHeaderRoot o m'.executionPayloadHeader :=
    Merkle.leafAt_eq_of_root_eq hbody h 9 (by decide)
  rw [computeExecutionPayloadHeaderRoot_eq, computeExecutionPayloadHeaderRoot_eq] at hroot
  have hleaf := Merkle.leafAt_eq_of_root_eq hpayload hroot
  have hextra := hleaf 10 (by decide)
  have htransactions := hleaf 13 (by decide)
  have hwithdrawals := hleaf 14 (by decide)
  exact Prod.ext hextra (Prod.ext htransactions hwithdrawals)

/-- **What the voted id binds.** Two values with one byte stream have one body root, and one beacon
header at every height, proposer and parent, exactly if they agree on the three fields the stream leaves
out. -/
theorem voted_id_binds_body (hinput : m.consensusHashInput = m'.consensusHashInput)
    (hsep : Merkle.Separates o.hash32Concat (m.bodyPairs o) (m'.bodyPairs o)) :
    (m.bodyRoot o = m'.bodyRoot o ∧ ∀ height proposer parentRoot,
      m.beaconHeader o height proposer parentRoot = m'.beaconHeader o height proposer parentRoot) ↔
      unhashedLeaves o m.executionPayloadHeader = unhashedLeaves o m'.executionPayloadHeader := by
  constructor
  · rintro ⟨hroot, _⟩
    exact unhashed_eq_of_bodyRoot hsep hroot
  · intro hrest
    have hroot := bodyRoot_eq_of_unhashed hinput hrest
    refine ⟨hroot, fun height proposer parentRoot => ?_⟩
    have hstate := (sameStream_of_input_eq hinput).1.stateRoot
    unfold ValueMetadata.beaconHeader BlobCore.toBeaconHeader
    unfold ValueMetadata.bodyRoot at hroot
    dsimp only
    rw [hroot, hstate]

end Roots

namespace Sample

/-- The primitives with a two-to-one hash that separates the pairs of the two values below. -/
def mixing : Oracles :=
  { oracles with hash32Concat := fun a b => a * 0x9e3779b97f4a7c15 + b * 0xc2b2ae3d27d4eb4f + 1 }

/-- A value without blobs, and its transactions root. -/
def metadataOf (transactionsRoot : B256) : ValueMetadata :=
  ⟨{ fromPayload mixing (payload 1 0 1 0) (some 3) with transactionsRoot }, [], 0, 0⟩

end Sample

open Sample in
/-- The counts of a value are not bound, and its body root does not need them. -/
theorem voted_id_binds_body_counts :
    (metadataOf 5).bodyRoot mixing = ({ metadataOf 5 with totalBlobBytes := 7 }).bodyRoot mixing :=
  ((@voted_id_binds_body mixing (metadataOf 5) { metadataOf 5 with totalBlobBytes := 7 }
    (by decide +kernel) (by decide +kernel)).2 rfl).1

open Sample in
/-- Two values with one byte stream and different body roots. -/
theorem voted_id_two_bodies :
    (metadataOf 5).consensusHashInput = (metadataOf 6).consensusHashInput ∧
    Merkle.Separates mixing.hash32Concat ((metadataOf 5).bodyPairs mixing)
      ((metadataOf 6).bodyPairs mixing) ∧
    (metadataOf 5).bodyRoot mixing ≠ (metadataOf 6).bodyRoot mixing ∧
    (metadataOf 5).beaconHeader mixing 1 (some 0) 0 ≠
      (metadataOf 6).beaconHeader mixing 1 (some 0) 0 := by
  decide +kernel

/-! ## The signed header -/

section Signed

variable {cfg : Config}

/-- The row has the header that was signed, and the root the next height must carry is the root of
that header. -/
def HeaderSigned (o : Oracles) (signedHeader : SignedBeaconBlockHeader) (row : BlobMetadata) : Prop :=
  signedHeader.message = row.toBeaconHeader o ∧
    row.computeBlobRoot o = signedHeader.message.hashTreeRoot o

/-- **Four fields are checked.** The fifth, the state root, decides. -/
theorem headerSigned_iff {d : Disk} {height : Height} {proposer : Address} {metadata : ValueMetadata}
    {sidecars : List BlobSidecar} {signedHeader : SignedBeaconBlockHeader} {row : BlobMetadata}
    (h : SidecarsOk cfg d height proposer metadata sidecars signedHeader)
    (hcore : row.core = ⟨height, signedHeader.message.parentRoot, metadata.blobKzgCommitments,
      metadata.executionPayloadHeader, cfg.validatorIndex proposer⟩) :
    HeaderSigned cfg.oracles signedHeader row ↔
      signedHeader.message.stateRoot = row.executionPayloadHeader.stateRoot := by
  constructor
  · rintro ⟨hmessage, _⟩
    rw [hmessage]
    rfl
  · intro hstate
    have hheader : row.executionPayloadHeader = metadata.executionPayloadHeader :=
      congrArg BlobCore.executionPayloadHeader hcore
    have hmessage : signedHeader.message = row.toBeaconHeader cfg.oracles := by
      rw [row.toBeaconHeader_eq, hcore]
      rw [hheader] at hstate
      have hslot := h.slot_eq
      have hindex := h.index_eq
      have hbody := h.bodyRoot_eq
      unfold BlobCore.toBeaconHeader
      dsimp only
      rw [hindex, ← hstate, ← hbody, ← hslot]
      rfl
    refine ⟨hmessage, ?_⟩
    rw [hmessage]
    rfl

/-- An accepted proposal with blobs: the header its sidecars share, and the row it is stored with. -/
theorem assembled_header {d : Disk} {latestBlock : Option ExecutionBlock} {now : Nat}
    {parts : ProposalParts} {a : Assembled}
    (h : assemble cfg d latestBlock now parts = .ok a) (hne : parts.sidecars ≠ []) :
    ∃ signedHeader, verifyBlobSidecars cfg d parts.height parts.proposer a.value.value.metadata
        parts.sidecars = .ok signedHeader ∧
      (HeaderSigned cfg.oracles signedHeader a.blobMetadata ↔
        signedHeader.message.stateRoot = a.blobMetadata.executionPayloadHeader.stateRoot) := by
  obtain ⟨payload, metadata, parentRoot, hfrom⟩ := assemble_eq_ok.1 h
  have hparent := hfrom.parent_eq
  unfold proposalParentRoot at hparent
  rw [if_neg hne] at hparent
  simp only [Exit.bind_eq_ok, Exit.pure_eq_ok, Exit.ok.injEq] at hparent
  obtain ⟨signedHeader, hverify, hroot⟩ := hparent
  have hmetadata : a.value.value.metadata = metadata := by
    rw [hfrom.value_eq]
    rfl
  rw [hmetadata]
  refine ⟨signedHeader, hverify, headerSigned_iff (verifyBlobSidecars_eq_ok.1 hverify) ?_⟩
  rw [core_blockMetadata? hfrom.blobMetadata_eq, hroot]

/-- An accepted package with blobs: the header its sidecars share, and the row it leaves. -/
theorem synced_header {slot : Slot} {proposer : Address} {value : Value} {payload : Bytes}
    {sidecars : List BlobSidecar} {requests : List Bytes} {notices : List ArchiveNotice}
    {v : ProposedValue} {m m' : Machine Disk Memory}
    (h : Prog.Returns (processSyncedFull cfg slot.height slot.round proposer value payload sidecars
      requests notices) m (some v) m') (hne : sidecars ≠ []) :
    ∃ signedHeader row, verifyBlobSidecars cfg m.disk slot.height proposer value.metadata sidecars =
        .ok signedHeader ∧
      (m.disk.store.blobMetadataUndecided[slot]? = none →
        ∃ stored, m'.disk.store.blobMetadataDecided[slot.height]? = some stored ∧
          stored.core = row.core) ∧
      (HeaderSigned cfg.oracles signedHeader row ↔
        signedHeader.message.stateRoot = row.executionPayloadHeader.stateRoot) := by
  unfold processSyncedFull at h
  obtain ⟨_, m₁, hdata, h⟩ := Prog.returns_bind.1 h
  have hm₁ : m₁ = ⟨⟨m.disk.store.apply (.insertUndecidedBlockData slot ⟨payload, requests⟩),
      m.disk.blobs⟩, m.mem⟩ := by
    obtain ⟨_, _, hdata⟩ := Prog.returns_ofExit_bind.1 hdata
    exact (Prog.returns_write.1 hdata).symm
  rw [if_neg hne] at h
  obtain ⟨answer, m₂, hsidecars, h⟩ := Prog.returns_bind.1 h
  cases answer with
  | none => cases (Prog.returns_pure.1 h).1
  | some signedHeader =>
    obtain ⟨_, _, hok, hm₂⟩ := returns_syncSidecars.1 hsidecars
    have hok' : SidecarsOk cfg m.disk slot.height proposer value.metadata sidecars signedHeader := by
      refine hok.congr ?_
      rw [hm₁]
      rfl
    unfold acceptFull at h
    rw [returns_getDisk_bind] at h
    split at h
    · rename_i root hroot
      split at h
      · obtain ⟨_, _, _, h⟩ := Prog.returns_bind.1 h
        exact absurd h not_returns_rejected
      · rename_i hsame
        have hroot' : root = signedHeader.message.parentRoot := by
          simp only [Option.any_some, decide_eq_true_eq, not_not] at hsame
          exact hsame.symm
        obtain ⟨row, hrow, h⟩ := Prog.returns_ofExit_bind.1 h
        refine ⟨signedHeader, row, verifyBlobSidecars_eq_ok.2 hok', fun hfree => ?_,
          headerSigned_iff hok' ?_⟩
        · obtain ⟨_, m₃, hpromote, h⟩ := Prog.returns_bind.1 h
          obtain ⟨_, m₄, hproposal, h⟩ := Prog.returns_bind.1 h
          obtain ⟨_, m₅, hnotices, h⟩ := Prog.returns_bind.1 h
          obtain ⟨_, rfl⟩ := Prog.returns_pure.1 h
          -- the row is promoted as it is; the notices keep its core
          have hm₃ := (hpromote.unique returns_promoteSyncedMetadata).2
          have hrow₃ : m₃.disk.store.blobMetadataDecided[slot.height]? = some row := by
            rw [hm₃]
            refine (Store.withRow_metadata ?_ _).trans (if_pos rfl)
            rw [hm₂, hm₁]
            exact hfree
          have hrow₄ : m₄.disk.store.blobMetadataDecided[slot.height]? = some row := by
            obtain ⟨_, _, hproposal⟩ := Prog.returns_ofExit_bind.1 hproposal
            rw [← Prog.returns_write.1 hproposal]
            exact hrow₃
          have hstored := core_of_archives (handleArchiveNotices_archives cfg notices m₄).1 hrow₄
          rw [hnotices.2] at hstored
          exact hstored
        · rw [core_blockMetadata? (Exit.orPanic_eq_ok.1 hrow), hroot']
    · cases (Prog.returns_pure.1 h).1

end Signed

namespace Sample

/-- The sidecars of the blob block, with a header that validator 2 has signed for this state root. -/
def signedWith (stateRoot : B256) : List BlobSidecar :=
  ((node 2 proposeBlob).machine.disk.blobs.getUndecidedBlobs 1 0).map fun s =>
    { s with signedBlockHeader :=
        signHeader (config 2) { s.signedBlockHeader.message with stateRoot } }

/-- They arrive in a package at the node of validator 1. -/
def synced (stateRoot : B256) : Outcome Disk Memory Write Err (Option ProposedValue) :=
  (processSyncedPackage (config 1) 1 (.some 0) ⟨2⟩
    (.full blobValue [1, 0, 1, 1] (signedWith stateRoot) [] [])).run (node 1 [.start]).machine

/-- An accepted package, as a run. -/
theorem returns_synced {stateRoot : B256} (h : (synced stateRoot).exit =
      .ok (some (syncedProposal 1 (.some 0) ⟨2⟩ blobValue))) :
    Prog.Returns (processSyncedPackage (config 1) 1 (.some 0) ⟨2⟩
      (.full blobValue [1, 0, 1, 1] (signedWith stateRoot) [] [])) (node 1 [.start]).machine
      (some (syncedProposal 1 (.some 0) ⟨2⟩ blobValue)) (synced stateRoot).state :=
  ⟨h, rfl⟩

/-- The parts of the proposal with these sidecars. -/
def signedParts (stateRoot : B256) : ProposalParts :=
  ⟨1, .some 0, ⟨2⟩, makeProposalParts (config 2) ⟨1, .some 0, blobValue⟩ [1, 0, 1, 1]
    (signedWith stateRoot) [] ⟨2⟩⟩

/-- They arrive at the node of validator 1. -/
def received (stateRoot : B256) : Outcome Disk Memory Write Err Assembled :=
  (assembleAndStoreBlobs (config 1) 1 (signedParts stateRoot)).run (node 1 [.start]).machine

/-- An accepted proposal, as a run. -/
theorem returns_received {stateRoot : B256}
    (h : (received stateRoot).exit.okAnd (fun _ => true) = true) :
    ∃ a m', Prog.Returns (assembleAndStoreBlobs (config 1) 1 (signedParts stateRoot))
      (node 1 [.start]).machine a m' := by
  obtain ⟨a, ha, -⟩ := Exit.okAnd_iff.1 h
  exact ⟨a, _, ha, rfl⟩

end Sample

end Ultramarine
