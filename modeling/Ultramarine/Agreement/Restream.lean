import Ultramarine.Agreement.ProposerFollower

/-!
# Restreaming a value in a later round

The proposer of a later round streams a value again that was proposed in an earlier one. It copies
the metadata row of the earlier round, and with it the proposer index of the validator that made
the row; its followers rebuild the row from the stream and take the index of the one that streams.
The sidecars are rebuilt with the copied index too, under the signature of the one that streams.

Results:

* `HoldsValue.loadRestream`: what a node streams again of a value it holds;
* `restreamProposal_inversion`: a restream copies the row and sends one stream, and archive notices
  around it;
* `restream_rows_agree`: a follower accepts the stream and stores the row of the restreaming node
  exactly if that node made the value itself.
-/

namespace Ultramarine

open Lib Ssz Prog

/-- A node holds the value that validator `p` proposed for a slot of a height it has not decided:
the row is the one of the payload and the blobs, chained to `root`. -/
structure HoldsValue (cfg : Config) (d : Disk) (slot : Slot) (p : Address)
    (record : BlockPayloadRecord) (payload : ExecutionPayloadV3) (root : B256)
    (row : BlobMetadata) : Prop where
  validator : (cfg.validatorIndex p).isSome
  round_ne : slot.round ≠ .nil
  undecided : d.store.blobMetadataDecided[slot.height]? = none
  proposed : (d.store.undecidedProposals[slot]?).isSome
  recorded : d.store.loadBlockPayloadRecord slot = some record
  stored : d.store.blobMetadataUndecided[slot]? = some row
  requests_ok : validateExecutionRequests record.executionRequests = .ok ()
  bytes_ne_nil : record.executionPayloadSsz ≠ []
  decode : cfg.oracles.fromSszBytes record.executionPayloadSsz = some payload
  parent_eq : resolveParentRootForHeight cfg d slot.height = .ok root
  row_eq : blockMetadata? slot.height root
    ((d.blobs.getUndecidedBlobs slot.height slot.round.asI64).map (·.kzgCommitment))
    ((d.blobs.getUndecidedBlobs slot.height slot.round.asI64).map (·.blobKeccak cfg.oracles))
    (fromPayload cfg.oracles payload
      (some (cfg.oracles.computeRequestsHash record.executionRequests)))
    (cfg.validatorIndex p) = some row
  count_le : (d.blobs.getUndecidedBlobs slot.height slot.round.asI64).length ≤
    maxBlobCommitmentsPerBlock

/-! ## What is streamed again -/

/-- A stored blob as an entry of a bundle. -/
def BlobSidecar.entry (s : BlobSidecar) : Blob × KzgCommitment × KzgProof :=
  (s.blob, s.kzgCommitment, s.kzgProof)

section Load

variable {cfg : Config} {d : Disk} {slot : Slot} {p : Address} {record : BlockPayloadRecord}
  {payload : ExecutionPayloadV3} {root : B256} {row : BlobMetadata}

theorem HoldsValue.core_eq (h : HoldsValue cfg d slot p record payload root row) :
    row.core = ⟨slot.height, root,
      (d.blobs.getUndecidedBlobs slot.height slot.round.asI64).map (·.kzgCommitment),
      fromPayload cfg.oracles payload
        (some (cfg.oracles.computeRequestsHash record.executionRequests)),
      cfg.validatorIndex p⟩ := core_blockMetadata? h.row_eq

theorem HoldsValue.commitments_eq (h : HoldsValue cfg d slot p record payload root row) :
    row.blobKzgCommitments =
      (d.blobs.getUndecidedBlobs slot.height slot.round.asI64).map (·.kzgCommitment) :=
  congrArg BlobCore.blobKzgCommitments h.core_eq

theorem HoldsValue.header_eq (h : HoldsValue cfg d slot p record payload root row) :
    row.executionPayloadHeader = fromPayload cfg.oracles payload
      (some (cfg.oracles.computeRequestsHash record.executionRequests)) :=
  congrArg BlobCore.executionPayloadHeader h.core_eq

/-- The header of the rebuilt sidecars has the index of the validator that made the row. -/
theorem HoldsValue.message_eq (h : HoldsValue cfg d slot p record payload root row) {index : Nat}
    (hindex : cfg.validatorIndex p = some index) (q : Address) :
    buildBeaconHeaderFromBlobMetadata cfg row q =
      .ok (sidecarHeader cfg.oracles slot.height index root row.blobKzgCommitments
        row.executionPayloadHeader) := by
  have hhint : row.proposerIndexHint = some index :=
    (congrArg BlobCore.proposerIndexHint h.core_eq).trans hindex
  have hheight : row.height = slot.height := congrArg BlobCore.height h.core_eq
  have hroot : row.parentBlobRoot = root := congrArg BlobCore.parentBlobRoot h.core_eq
  unfold buildBeaconHeaderFromBlobMetadata
  rw [hhint, hheight, hroot]
  rfl

/-- The sidecars that a node streams again: the stored blobs, under a header with the index of the
row's proposer and the signature of the node. -/
def restreamed (cfg : Config) (d : Disk) (slot : Slot) (index : Nat) (root : B256)
    (row : BlobMetadata) : List BlobSidecar :=
  sidecarsFrom cfg.oracles row.blobKzgCommitments row.executionPayloadHeader
    (signHeader cfg (sidecarHeader cfg.oracles slot.height index root row.blobKzgCommitments
      row.executionPayloadHeader)) 0
    ((d.blobs.getUndecidedBlobs slot.height slot.round.asI64).map BlobSidecar.entry)

theorem HoldsValue.rebuild_eq (h : HoldsValue cfg d slot p record payload root row) {index : Nat}
    (hindex : cfg.validatorIndex p = some index) (q : Address) :
    rebuildBlobSidecarsForRestream cfg row q
        (d.blobs.getUndecidedBlobs slot.height slot.round.asI64) =
      .ok (restreamed cfg d slot index root row) := by
  have hcommitments := h.commitments_eq
  have hcount : row.blobCount = (d.blobs.getUndecidedBlobs slot.height slot.round.asI64).length := by
    unfold BlobMetadata.blobCount
    rw [hcommitments, List.length_map]
  have hlen : row.blobKzgCommitments.length ≤ maxBlobCommitmentsPerBlock := by
    rw [hcommitments, List.length_map]
    exact h.count_le
  unfold rebuildBlobSidecarsForRestream Exit.ensure
  rw [if_pos hcount, h.message_eq hindex]
  refine buildSidecars_eq hlen _ 0 fun j e he => ?_
  rw [List.getElem?_map, Option.map_eq_some_iff] at he
  obtain ⟨s, hs, rfl⟩ := he
  rw [hcommitments, Nat.zero_add, List.getElem?_map, hs]
  rfl

/-- **What a node streams again** of a value it holds. -/
theorem HoldsValue.loadRestream (h : HoldsValue cfg d slot p record payload root row)
    {index : Nat} (hindex : cfg.validatorIndex p = some index) :
    ∃ proposal, loadRestream cfg d slot =
      some ⟨proposal, record, row, restreamed cfg d slot index root row, false⟩ := by
  obtain ⟨proposal, hproposal⟩ := Option.isSome_iff_exists.1 h.proposed
  refine ⟨proposal, ?_⟩
  have hrow : d.store.loadBlobMetadataForRound slot = .ok (some row) := by
    unfold Store.loadBlobMetadataForRound
    rw [h.stored]
  have hblobs : getUndecidedBlobsWithStatusCheck d slot =
      .ok (d.blobs.getUndecidedBlobs slot.height slot.round.asI64) := by
    unfold getUndecidedBlobsWithStatusCheck
    rw [Store.getBlobMetadata_eq_none_iff.2 h.undecided]
  unfold Ultramarine.loadRestream
  rw [hproposal, h.recorded, hrow]
  dsimp only [Option.bind_eq_bind, Option.bind_some]
  split
  · rename_i hzero
    have hnil : d.blobs.getUndecidedBlobs slot.height slot.round.asI64 = [] := by
      have hlen : row.blobKzgCommitments.length = 0 := hzero
      rw [h.commitments_eq, List.length_map] at hlen
      exact List.eq_nil_of_length_eq_zero hlen
    unfold restreamed
    rw [hnil]
    rfl
  · rename_i hcount
    have hne : d.blobs.getUndecidedBlobs slot.height slot.round.asI64 ≠ [] := by
      intro hnil
      refine hcount ?_
      unfold BlobMetadata.blobCount
      rw [h.commitments_eq, hnil]
      rfl
    rw [hblobs]
    dsimp only
    rw [if_neg hne, h.rebuild_eq hindex]

end Load

/-! ## The restream -/

/-- The message carries an archive notice. -/
def StreamMessage.isNotice (msg : StreamMessage) : Prop :=
  (msg.content.asData.bind ProposalPart.asArchiveNotice).isSome

theorem restreamArchiveNotices_inversion :
    ∀ {notices : List ArchiveNotice} {messages : List StreamMessage} {m m' : Machine Disk Memory},
      Returns (restreamArchiveNotices notices) m messages m' →
        m'.disk = m.disk ∧ ∀ msg ∈ messages, msg.isNotice
  | [], messages, m, m', hr => by
    obtain ⟨rfl, rfl⟩ := returns_pure.1 hr
    exact ⟨rfl, by simp⟩
  | notice :: rest, messages, m, m', hr => by
    have hdisk := (restreamArchiveNotices_silent (notice :: rest)).disk_eq m
    rw [hr.2] at hdisk
    refine ⟨hdisk, ?_⟩
    unfold restreamArchiveNotices streamArchiveNotice at hr
    obtain ⟨message, m₁, hmessage, hr⟩ := returns_bind.1 hr
    obtain ⟨messages', m₂, hrest, hr⟩ := returns_bind.1 hr
    obtain ⟨rfl, rfl⟩ := returns_pure.1 hr
    obtain ⟨id, _, _, hmessage⟩ := returns_bind.1 hmessage
    obtain ⟨rfl, rfl⟩ := returns_pure.1 hmessage
    intro msg hmsg
    rcases List.mem_cons.1 hmsg with rfl | hmsg
    · exact rfl
    · exact (restreamArchiveNotices_inversion hrest).2 msg hmsg

/-- **A restream** copies the row to the new round and streams the value there, with archive notices
before and after. -/
theorem restreamProposal_inversion {cfg : Config} {height : Height} {round validRound : Round}
    {r : Restream} {messages : List StreamMessage} {m m' : Machine Disk Memory}
    (hload : loadRestream cfg m.disk ⟨height, validRound⟩ = some r) (hvalid : validRound ≠ .nil)
    (hround : round ≠ validRound)
    (hr : Returns (restreamProposal cfg height round validRound cfg.address) m messages m') :
    ∃ id early late, messages = early ++ streamMessages id (makeProposalParts cfg
        ⟨height, round, r.proposal.value⟩ r.record.executionPayloadSsz r.sidecars
        r.record.executionRequests cfg.address) ++ late ∧
      (∀ msg ∈ early ++ late, msg.isNotice) ∧ round ≠ .nil ∧ kzgOk cfg r.sidecars ∧
      m'.disk.store.blobMetadataUndecided[Slot.mk height round]? =
        some ((m.disk.store.blobMetadataUndecided[Slot.mk height round]?).getD r.metadata) := by
  have hsource : restreamSource round validRound = validRound := if_neg hvalid
  unfold restreamProposal at hr
  rw [if_neg (by simp), hsource, returns_getDisk_bind, hload] at hr
  dsimp only at hr
  obtain ⟨early, m₁, hearly, hr⟩ := returns_bind.1 hr
  obtain ⟨_, m₂, hcopy, hr⟩ := returns_bind.1 hr
  obtain ⟨stream, m₃, hstream, hr⟩ := returns_bind.1 hr
  obtain ⟨late, m₄, hlate, hr⟩ := returns_bind.1 hr
  obtain ⟨rfl, rfl⟩ := returns_pure.1 hr
  obtain ⟨hdisk₁, hearly⟩ := restreamArchiveNotices_inversion hearly
  obtain ⟨hdisk₃, id, rfl⟩ := streamProposal_inversion hstream
  obtain ⟨hdisk₄, hlate⟩ := restreamArchiveNotices_inversion hlate
  obtain ⟨-, hcopy⟩ | ⟨hsame, -⟩ := returns_onlyIf.1 hcopy
  swap
  · exact absurd hround hsame
  unfold copyToRound storeUndecidedProposal storeUndecidedBlockData putBlobMetadataUndecided at hcopy
  simp only [bind_assoc, returns_ofExit_bind, Exit.ensure_eq_ok, returns_storeWrite_bind,
    exists_const] at hcopy
  obtain ⟨hnil, hcopy⟩ := hcopy
  obtain ⟨hkzg, rfl⟩ := returns_verifyAndStore.1 hcopy
  refine ⟨id, early, late, rfl, fun msg hmsg => ?_, hnil, hkzg, ?_⟩
  · rcases List.mem_append.1 hmsg with hmsg | hmsg
    exacts [hearly msg hmsg, hlate msg hmsg]
  · rw [hdisk₄, hdisk₃]
    refine (Table.getElem?_insertIfNew_eq m₁.disk.store.blobMetadataUndecided _ _ _).trans ?_
    rw [if_pos rfl, hdisk₁]

/-! ## Agreement -/

section Agree

variable {cfg cfg' : Config} {d d' : Disk} {slot : Slot} {round : Round} {p : Address}
  {record : BlockPayloadRecord} {payload : ExecutionPayloadV3} {root : B256} {row : BlobMetadata}
  {latest : Option ExecutionBlock} {now : Nat} {v : Validator}

/-- A follower assembles the row again, if it was made by the node that streams it. -/
theorem HoldsValue.assembled (h : HoldsValue cfg d slot cfg.address record payload root row)
    {index : Nat} (hindex : cfg.validatorIndex cfg.address = some index) (value : Value)
    (hkey : SignsAs cfg v) (hnet : SameNetwork cfg cfg')
    (hroot : resolveParentRootForHeight cfg' d' slot.height = .ok root)
    (hblock : validateProposedTimestamp now latest (fromPayload cfg.oracles payload
      (some (cfg.oracles.computeRequestsHash record.executionRequests))) = .ok ()) :
    ∃ a : Assembled, assemble cfg' d' latest now (streamed cfg ⟨slot.height, round, value⟩
        record.executionPayloadSsz (restreamed cfg d slot index root row)
        record.executionRequests) = .ok a ∧
      a.blobMetadata = row ∧ a.sidecars = restreamed cfg d slot index root row ∧
      Slot.mk a.value.height a.value.round = ⟨slot.height, round⟩ := by
  obtain ⟨metadata, hmetadata⟩ := valueMetadata_of_blockMetadata? h.row_eq
  obtain ⟨hheader, hlisted, -⟩ := ValueMetadata.new?_eq_some hmetadata
  have hcommitments : (restreamed cfg d slot index root row).map (·.kzgCommitment) =
      (d.blobs.getUndecidedBlobs slot.height slot.round.asI64).map (·.kzgCommitment) := by
    unfold restreamed
    rw [map_sidecarsFrom (fun _ _ => rfl), List.map_map]
    rfl
  have hkeccaks : (restreamed cfg d slot index root row).map (·.blobKeccak cfg.oracles) =
      (d.blobs.getUndecidedBlobs slot.height slot.round.asI64).map (·.blobKeccak cfg.oracles) := by
    unfold restreamed
    rw [map_sidecarsFrom (g := fun e => e.1.keccakHash cfg.oracles) (fun _ _ => rfl), List.map_map]
    rfl
  have hparent := @proposalParentRoot_streamed cfg ⟨slot.height, round, value⟩
    record.executionPayloadSsz (restreamed cfg d slot index root row) record.executionRequests cfg'
    d' v index root metadata
    ((d.blobs.getUndecidedBlobs slot.height slot.round.asI64).map BlobSidecar.entry) hkey hnet hroot
    hindex (by rw [hlisted, List.map_map]; rfl)
    (fun _ => by rw [hlisted, List.length_map]; exact h.count_le)
    (by rw [hlisted, hheader, ← h.commitments_eq, ← h.header_eq]; rfl)
  refine ⟨_, @assemble_streamed cfg ⟨slot.height, round, value⟩ record.executionPayloadSsz
    (restreamed cfg d slot index root row) record.executionRequests cfg' d' latest now payload _
    metadata root row h.requests_ok h.bytes_ne_nil (by rw [hnet.oracles]; exact h.decode) rfl
    (by rw [hnet.oracles, hcommitments]; exact hmetadata) (by rw [hnet.oracles]; exact hblock)
    hparent ?_, rfl, rfl, rfl⟩
  rw [hcommitments, hnet.oracles, hkeccaks, hnet.validatorIndex]
  exact h.row_eq

/-- The row that a receiver makes of a stream has the index of the node that streams it. -/
theorem hint_of_assemble_streamed {value : LocallyProposedValue} {data : Bytes}
    {sidecars : List BlobSidecar} {requests : List Bytes} {a : Assembled}
    (hnet : SameNetwork cfg cfg')
    (ha : assemble cfg' d latest now (streamed cfg value data sidecars requests) = .ok a) :
    a.blobMetadata.proposerIndexHint = cfg.validatorIndex cfg.address := by
  obtain ⟨payload, metadata, root, hfrom⟩ := assemble_eq_ok.1 ha
  have hcore := congrArg BlobCore.proposerIndexHint (core_blockMetadata? hfrom.blobMetadata_eq)
  exact hcore.trans (hnet.validatorIndex _)

end Agree

/-- **A restreamed value leaves one row exactly if its maker restreams it.** A node holds the value
that validator `p` proposed in an earlier round, and streams it again in a round it has no row for.
A follower of the same network, with the same row one height below, that has nothing stored for the
new round and whose `latest_block` and clock admit the block, receives the stream in any order. It
accepts the value and stores the row that the restreaming node stores, if and only if that node is
`p` itself. -/
theorem restream_rows_agree {cfg cfg' : Config} {height : Height} {round validRound : Round}
    {p : Address} {record : BlockPayloadRecord} {payload : ExecutionPayloadV3} {root : B256}
    {row : BlobMetadata} {messages : List StreamMessage} {m₁ m₁' m₂ : Machine Disk Memory}
    {v : Validator} {now : Nat} {peer : PeerId}
    (hholds : HoldsValue cfg m₁.disk ⟨height, validRound⟩ p record payload root row)
    (hround : round ≠ validRound)
    (hrestream : Returns (restreamProposal cfg height round validRound cfg.address) m₁ messages m₁')
    (hnew : m₁.disk.store.blobMetadataUndecided[Slot.mk height round]? = none)
    (hnet : SameNetwork cfg cfg') (hkey : SignsAs cfg v)
    (hparent : m₂.disk.store.getBlobMetadata (height - 1) =
      m₁.disk.store.getBlobMetadata (height - 1))
    (hfree : m₂.disk.FreeSlot ⟨height, round⟩) (hcurrent : m₂.mem.currentHeight ≤ height)
    (hblock : validateProposedTimestamp now m₂.mem.latestBlock (fromPayload cfg.oracles payload
      (some (cfg.oracles.computeRequestsHash record.executionRequests))) = .ok ())
    (hfresh : ∀ msg ∈ messages, m₂.mem.streamsMap[StreamKey.mk peer msg.streamId]? = none) :
    ∃ early stream late, messages = early ++ stream ++ late ∧
      (∀ msg ∈ early ++ late, msg.isNotice) ∧
      ∀ received : List StreamMessage, received.Perm stream →
        ((∃ answer m₂', Returns (deliver cfg' now peer received) m₂ [answer] m₂' ∧
          m₂'.disk.store.blobMetadataUndecided[Slot.mk height round]? =
            m₁'.disk.store.blobMetadataUndecided[Slot.mk height round]?) ↔ p = cfg.address) := by
  obtain ⟨index, hindex⟩ := Option.isSome_iff_exists.1 hholds.validator
  obtain ⟨proposal, hload⟩ := hholds.loadRestream hindex
  obtain ⟨id, early, late, rfl, hnotices, hnil, hkzg, hrow⟩ :=
    restreamProposal_inversion hload hholds.round_ne hround hrestream
  rw [hnew] at hrow
  refine ⟨early, _, late, rfl, hnotices, fun received horder => ?_⟩
  obtain ⟨streams, hdeliver⟩ := @returns_deliver_streamed cfg now peer id m₂ cfg' _ _ _ _ _ horder
    (hfresh ⟨id, _, .fin⟩ (by
      simp only [List.mem_append]
      exact .inl (.inr (mem_streamMessages.2 (.inr rfl)))))
  constructor
  · rintro ⟨answer, m₂', hr, heq⟩
    obtain ⟨_, _, a, ha, _, _, _, rfl⟩ := returns_receivedProposal.1 ((hdeliver _ _).1 hr)
    obtain ⟨payload', metadata', root', hfrom⟩ := assemble_eq_ok.1 ha
    have hslot : Slot.mk a.value.height a.value.round = ⟨height, round⟩ := by
      rw [hfrom.value_eq]
      rfl
    have hstored := congrArg SlotContents.metadata (hfree.rows_received hslot)
    have hsame : a.blobMetadata = row := Option.some.inj (hstored.symm.trans (heq.trans hrow))
    have hhint : cfg.validatorIndex p = cfg.validatorIndex cfg.address := by
      rw [← hint_of_assemble_streamed hnet ha, hsame]
      exact (congrArg BlobCore.proposerIndexHint hholds.core_eq).symm
    exact ValidatorSet.validatorIndex_inj hindex (hhint.symm.trans hindex)
  · rintro rfl
    have hroot : resolveParentRootForHeight cfg' m₂.disk height = .ok root :=
      (resolveParentRootForHeight_congr hnet.oracles hparent).trans hholds.parent_eq
    obtain ⟨a, ha, hrow', hsidecars, hslot⟩ := @HoldsValue.assembled cfg cfg' m₁.disk m₂.disk
      ⟨height, validRound⟩ round record payload root row m₂.mem.latestBlock now v hholds index hindex
      proposal.value hkey hnet hroot hblock
    have hkzg' : kzgOk cfg' a.sidecars := by
      unfold kzgOk at hkzg ⊢
      rwa [hnet.oracles, hsidecars]
    refine ⟨a.value, _, (hdeliver _ _).2 (returns_receivedProposal.2 ⟨hcurrent,
      verifyProposalSignature_streamed hkey hnet, a, ha, hkzg', hnil, rfl, rfl⟩), ?_⟩
    have hstored := congrArg SlotContents.metadata (hfree.rows_received hslot)
    exact hstored.trans (by rw [hrow, hrow']; rfl)

namespace Sample

/-- The node that has proposed the block with its blob in round 0 of height 1 restreams it in
round 1. -/
def restreamOwn : Outcome Disk Memory Write Err (List StreamMessage) :=
  (restreamProposal (config 1) 1 (.some 1) (.some 0) ⟨1⟩).run (node 1 proposeBlob).machine

/-- Another validator, which has received the value, restreams it in round 1. -/
def restreamOther : Outcome Disk Memory Write Err (List StreamMessage) :=
  (restreamProposal (config 2) 1 (.some 1) (.some 0) ⟨2⟩).run
    (node 2 (.start :: receive blobStream)).machine

/-- The root of the row of height 0. -/
def genesisRoot : B256 := BlobMetadata.genesis.computeBlobRoot oracles

/-- The row of the block with its blob, proposed by validator 1. -/
def blobRow? : Option BlobMetadata :=
  blockMetadata? 1 genesisRoot [⟨1⟩] [7] (fromPayload oracles blobBlock (some 3)) (some 0)

/-- The node of validator 1 holds its own value. -/
theorem holdsValue_own : ∃ row, HoldsValue (config 1) (node 1 proposeBlob).machine.disk
    ⟨1, .some 0⟩ ⟨1⟩ ⟨oracles.asSszBytes blobBlock, []⟩ blobBlock genesisRoot row := by
  have hrow : blobRow?.isSome = true := by decide +kernel
  obtain ⟨row, hrow⟩ := Option.isSome_iff_exists.1 hrow
  have hdisk :
      (node 1 proposeBlob).machine.disk.store.blobMetadataDecided[1]? = none ∧
      ((node 1 proposeBlob).machine.disk.store.undecidedProposals[Slot.mk 1 (.some 0)]?).isSome ∧
      (node 1 proposeBlob).machine.disk.store.loadBlockPayloadRecord ⟨1, .some 0⟩ =
        some ⟨oracles.asSszBytes blobBlock, []⟩ ∧
      (node 1 proposeBlob).machine.disk.store.blobMetadataUndecided[Slot.mk 1 (.some 0)]? =
        blobRow? ∧
      resolveParentRootForHeight (config 1) (node 1 proposeBlob).machine.disk 1 =
        .ok genesisRoot ∧
      ((node 1 proposeBlob).machine.disk.blobs.getUndecidedBlobs 1 0).map (·.kzgCommitment) =
        [⟨1⟩] ∧
      ((node 1 proposeBlob).machine.disk.blobs.getUndecidedBlobs 1 0).map (·.blobKeccak oracles) =
        [7] := by decide +kernel
  obtain ⟨hundecided, hproposed, hrecorded, hstored, hroot, hcommitments, hkeccaks⟩ := hdisk
  refine ⟨row, by decide, nofun, hundecided, hproposed, hrecorded, hstored.trans hrow,
    by decide, by decide, by decide +kernel, hroot, ?_, ?_⟩
  · refine Eq.trans ?_ hrow
    show blockMetadata? 1 genesisRoot
      (((node 1 proposeBlob).machine.disk.blobs.getUndecidedBlobs 1 0).map (·.kzgCommitment))
      (((node 1 proposeBlob).machine.disk.blobs.getUndecidedBlobs 1 0).map (·.blobKeccak oracles))
      _ _ = blobRow?
    rw [hcommitments, hkeccaks]
    rfl
  · have hlen := congrArg List.length hcommitments
    rw [List.length_map] at hlen
    exact hlen.trans_le (by decide)

end Sample

open Sample in
/-- The maker of a value restreams it, and the node of validator 2 stores the same row. -/
theorem restream_rows_agree_own :
    ∃ messages m₁' answer m₂', ∃ stream early late : List StreamMessage,
      Returns (restreamProposal (config 1) 1 (.some 1) (.some 0) ⟨1⟩) (node 1 proposeBlob).machine
        messages m₁' ∧ messages = early ++ stream ++ late ∧
      Returns (deliver (config 2) 1 0 stream) (node 2 [.start]).machine [answer] m₂' ∧
      m₂'.disk.store.blobMetadataUndecided[Slot.mk 1 (.some 1)]? =
        m₁'.disk.store.blobMetadataUndecided[Slot.mk 1 (.some 1)]? := by
  have hok : restreamOwn.exit.okAnd (fun _ => true) = true := by decide +kernel
  obtain ⟨messages, hexit, -⟩ := Exit.okAnd_iff.1 hok
  have hrestream : Returns (restreamProposal (config 1) 1 (.some 1) (.some 0) (config 1).address)
      (node 1 proposeBlob).machine messages _ := ⟨hexit, rfl⟩
  have hfacts : (node 2 [.start]).machine.disk = ⟨started, .empty⟩ ∧
      (node 1 proposeBlob).machine.disk.store.getBlobMetadata 0 = started.getBlobMetadata 0 ∧
      (node 1 proposeBlob).machine.disk.store.blobMetadataUndecided[Slot.mk 1 (.some 1)]? =
        none ∧
      (node 2 [.start]).machine.mem.currentHeight ≤ 1 ∧
      (node 2 [.start]).machine.mem.streamsMap = ∅ ∧
      validateProposedTimestamp 1 (node 2 [.start]).machine.mem.latestBlock
        (fromPayload oracles blobBlock (some 3)) = .ok () := by decide +kernel
  obtain ⟨hdisk, hgenesis, hnew, hcurrent, hstreams, hblock⟩ := hfacts
  have hfree : (⟨started, .empty⟩ : Disk).FreeSlot ⟨1, .some 1⟩ := (nothingAt_one rfl rfl).slot _
  obtain ⟨row, hholds⟩ := holdsValue_own
  obtain ⟨early, stream, late, hmessages, -, hagree⟩ := @restream_rows_agree (config 1) (config 2)
    1 (.some 1) (.some 0) ⟨1⟩ _ _ _ row messages _ _ (node 2 [.start]).machine _ 1 0 hholds
    (by decide) hrestream hnew (sameNetwork 1 2) signsAs_one (by rw [hdisk]; exact hgenesis.symm)
    (hdisk ▸ hfree) hcurrent hblock (fun msg _ => by rw [hstreams]; rfl)
  obtain ⟨answer, m₂', hdeliver, hrows⟩ := (hagree stream (.refl _)).2 (by decide)
  exact ⟨messages, _, answer, m₂', stream, early, late, hrestream, hmessages, hdeliver, hrows⟩

open Sample in
/-- **A restream that its followers refuse.** The node of validator 2 has received the value of
validator 1 and restreams it in round 1, with the proposer index of validator 1 in the headers of the
sidecars; the node of validator 1 does not accept it. -/
theorem restream_of_other_refused :
    ∃ messages m₁' m₂',
      Returns (restreamProposal (config 2) 1 (.some 1) (.some 0) ⟨2⟩)
        (node 2 (.start :: receive blobStream)).machine messages m₁' ∧ messages ≠ [] ∧
      Returns (deliver (config 1) 1 0 messages) (node 1 proposeBlob).machine [] m₂' := by
  have hok : (restreamOther.exit.okAnd fun messages => !messages.isEmpty &&
      ((deliver (config 1) 1 0 messages).run (node 1 proposeBlob).machine).exit.okAnd
        List.isEmpty) = true := by decide +kernel
  obtain ⟨messages, hexit, hok⟩ := Exit.okAnd_iff.1 hok
  obtain ⟨hne, hok⟩ := Bool.and_eq_true_iff.1 hok
  obtain ⟨answers, hdeliver, hnil⟩ := Exit.okAnd_iff.1 hok
  cases List.isEmpty_iff.1 hnil
  exact ⟨messages, _, _, ⟨hexit, rfl⟩, by simpa using hne, ⟨hdeliver, rfl⟩⟩

end Ultramarine
